/-
URLs as `urllib.parse` reads and writes them, over lists of characters.

* `Url.quote`, `Url.unquote`, `Url.quotePlus`, `Url.unquotePlus` — percent-encoding of UTF-8;
* `Url.urlencode`, `Url.parseQsl` — query strings, where blank values are dropped;
* `Url.urlsplit`, `Url.hostname`, `Url.port`, `Url.username`, `Url.password` — the parts of a
  URL, or none where the parser raises;
* `Url.unquote_quote`, `Url.parseQsl_urlencode` — what is read back;
* `Url.urlsplit_render`, `Url.plain_of_hostname` — which hosts and paths are read back as
  they were written.
-/
import TestRange.Lib.Text
import Mathlib.Data.List.SplitBy
import Mathlib.Data.String.Basic

namespace Url

/-! ### Before and after a character -/

/-- The text before the first `c`. -/
def before (c : Char) (cs : List Char) : List Char := cs.takeWhile (· != c)

/-- The text after the first `c`, empty where there is none. -/
def after (c : Char) (cs : List Char) : List Char := (cs.dropWhile (· != c)).tail

/-- The text after the last `c`, or all of it. -/
def afterLast (c : Char) (cs : List Char) : List Char := (before c cs.reverse).reverse

/-- The text before the last `c`, empty where there is none. -/
def beforeLast (c : Char) (cs : List Char) : List Char := (after c cs.reverse).reverse

section

variable {c d : Char} {cs a b : List Char}

theorem before_of_notMem (h : c ∉ cs) : before c cs = cs := by
  rw [before, List.takeWhile_eq_self_iff]
  intro d hd
  simp only [bne_iff_ne]
  rintro rfl
  exact h hd

theorem after_of_notMem (h : c ∉ cs) : after c cs = [] := by
  have hdrop : cs.dropWhile (· != c) = [] := by
    rw [List.dropWhile_eq_nil_iff]
    intro d hd
    simp only [bne_iff_ne]
    rintro rfl
    exact h hd
  rw [after, hdrop, List.tail_nil]

theorem before_append (h : c ∉ a) : before c (a ++ c :: b) = a := by
  have hall : ∀ d ∈ a, (d != c) = true := by
    intro d hd
    simp only [bne_iff_ne]
    rintro rfl
    exact h hd
  rw [before, List.takeWhile_append_of_pos hall, List.takeWhile_cons_of_neg (by simp),
    List.append_nil]

theorem after_append (h : c ∉ a) : after c (a ++ c :: b) = b := by
  have hall : ∀ d ∈ a, (d != c) = true := by
    intro d hd
    simp only [bne_iff_ne]
    rintro rfl
    exact h hd
  rw [after, List.dropWhile_append_of_pos hall, List.dropWhile_cons_of_neg (by simp),
    List.tail_cons]

theorem notMem_before (c : Char) (cs : List Char) : c ∉ before c cs := by
  intro h
  have hne := List.mem_takeWhile_imp h
  simp at hne

theorem mem_of_mem_before (h : d ∈ before c cs) : d ∈ cs := (List.takeWhile_prefix _).subset h

theorem mem_of_mem_after (h : d ∈ after c cs) : d ∈ cs :=
  (List.dropWhile_suffix _).subset (List.mem_of_mem_tail h)

theorem notMem_afterLast (c : Char) (cs : List Char) : c ∉ afterLast c cs := by
  rw [afterLast, List.mem_reverse]
  exact notMem_before c cs.reverse

theorem mem_of_mem_afterLast (h : d ∈ afterLast c cs) : d ∈ cs := by
  rw [afterLast, List.mem_reverse] at h
  exact List.mem_reverse.mp (mem_of_mem_before h)

theorem afterLast_append (h : c ∉ b) : afterLast c (a ++ c :: b) = b := by
  have hshape : (a ++ c :: b).reverse = b.reverse ++ c :: a.reverse := by simp
  rw [afterLast, hshape, before_append (by simpa using h), List.reverse_reverse]

theorem beforeLast_append (h : c ∉ b) : beforeLast c (a ++ c :: b) = a := by
  have hshape : (a ++ c :: b).reverse = b.reverse ++ c :: a.reverse := by simp
  rw [beforeLast, hshape, after_append (by simpa using h), List.reverse_reverse]

/-- A text is what is before the first `c` and, where there is one, `c` and what is after it. -/
theorem before_append_after (h : c ∈ cs) : before c cs ++ c :: after c cs = cs := by
  obtain ⟨a, b, rfl, ha⟩ := List.eq_append_cons_of_mem h
  rw [before_append ha, after_append ha]

end

/-! ### Percent-encoding -/

/-- `text.encode("utf-8")` -/
def utf8 (cs : List Char) : List UInt8 := cs.flatMap String.utf8EncodeChar

/-- `data.decode("utf-8", "replace")` -/
def decodeUtf8 (bs : List UInt8) : List Char :=
  match bs.toByteArray.utf8Decode? with
  | some cs => cs.toList
  | none => Text.decode bs

theorem decodeUtf8_utf8 (cs : List Char) : decodeUtf8 (utf8 cs) = cs := by
  have hdecode : (utf8 cs).toByteArray.utf8Decode? = some cs.toArray :=
    List.utf8Decode?_utf8Encode
  rw [decodeUtf8, hdecode]

/-- The upper-case hexadecimal digit. -/
def hexDigit (n : ℕ) : Char := if n < 10 then Char.ofNat (48 + n) else Char.ofNat (55 + n)

def hexValue (c : Char) : Option ℕ :=
  if c.isDigit then some (c.toNat - 48)
  else if 'A' ≤ c ∧ c ≤ 'F' then some (c.toNat - 55)
  else if 'a' ≤ c ∧ c ≤ 'f' then some (c.toNat - 87)
  else none

theorem hexValue_hexDigit : ∀ n < 16, hexValue (hexDigit n) = some n := by
  decide

/-- A byte as it is where it is safe, and as `%XX` elsewhere. -/
def quoteByte (safe : UInt8 → Bool) (b : UInt8) : List Char :=
  if safe b then [Char.ofNat b.toNat]
  else ['%', hexDigit (b.toNat / 16), hexDigit (b.toNat % 16)]

/-- Letters, digits and `_.-~`. -/
def alwaysSafe (b : UInt8) : Bool :=
  let c := Char.ofNat b.toNat
  c.isAlphanum || c = '_' || c = '.' || c = '-' || c = '~'

def plusSafe (b : UInt8) : Bool := alwaysSafe b || b = 0x20

/-- `quote(text, safe="")` -/
def quote (cs : List Char) : List Char := (utf8 cs).flatMap (quoteByte alwaysSafe)

/-- `quote_plus(text)` -/
def quotePlus (cs : List Char) : List Char :=
  ((utf8 cs).flatMap (quoteByte plusSafe)).map fun c => if c = ' ' then '+' else c

/-- `unquote_to_bytes` on ASCII text: an escape that is not one stays. -/
def unquoteToBytes : List Char → List UInt8
  | '%' :: x :: y :: rest =>
    match hexValue x, hexValue y with
    | some m, some n => UInt8.ofNat (m * 16 + n) :: unquoteToBytes rest
    | _, _ => 0x25 :: unquoteToBytes (x :: y :: rest)
  | c :: rest => UInt8.ofNat c.toNat :: unquoteToBytes rest
  | [] => []

def isAscii (c : Char) : Bool := c.toNat < 128

/-- `unquote(text)`: the ASCII runs are decoded, what is between them stays. -/
def unquote (cs : List Char) : List Char :=
  if '%' ∈ cs then
    (cs.splitBy fun a b => isAscii a == isAscii b).flatMap fun run =>
      if run.head?.any isAscii then decodeUtf8 (unquoteToBytes run) else run
  else cs

/-- `unquote_plus(text)` -/
def unquotePlus (cs : List Char) : List Char := unquote (cs.map fun c => if c = '+' then ' ' else c)

/-! ### What is quoted is read back -/

theorem unquoteToBytes_cons {c : Char} (h : c ≠ '%') (rest : List Char) :
    unquoteToBytes (c :: rest) = UInt8.ofNat c.toNat :: unquoteToBytes rest := by
  rw [unquoteToBytes]
  rintro x y rest' rfl -
  exact h rfl

theorem unquoteToBytes_escape (b : UInt8) (rest : List Char) :
    unquoteToBytes ('%' :: hexDigit (b.toNat / 16) :: hexDigit (b.toNat % 16) :: rest) =
      b :: unquoteToBytes rest := by
  have hlt := b.toNat_lt
  rw [unquoteToBytes, hexValue_hexDigit _ (by omega), hexValue_hexDigit _ (by omega)]
  dsimp only
  rw [show b.toNat / 16 * 16 + b.toNat % 16 = b.toNat by omega, UInt8.ofNat_toNat]

/-- The safe bytes are those of ASCII characters other than the escape. -/
def SafeBytes (safe : UInt8 → Bool) : Prop := ∀ b, safe b = true → b.toNat < 128 ∧ b.toNat ≠ 37

theorem toNat_ofNat {n : ℕ} (h : n < 128) : (Char.ofNat n).toNat = n := by
  have hvalid : n.isValidChar := .inl (by omega)
  rw [Char.ofNat, dif_pos hvalid]
  rfl

theorem unquoteToBytes_quoted {safe : UInt8 → Bool} (hsafe : SafeBytes safe) (bs : List UInt8) :
    unquoteToBytes (bs.flatMap (quoteByte safe)) = bs := by
  induction bs with
  | nil => rfl
  | cons b bs ih =>
    rw [List.flatMap_cons]
    by_cases hb : safe b = true
    · obtain ⟨hlt, hne⟩ := hsafe b hb
      have hchar : Char.ofNat b.toNat ≠ '%' := by
        intro heq
        have hnat := congrArg Char.toNat heq
        rw [toNat_ofNat hlt] at hnat
        exact hne hnat
      rw [quoteByte, if_pos hb, List.singleton_append, unquoteToBytes_cons hchar, toNat_ofNat hlt,
        UInt8.ofNat_toNat, ih]
    · rw [quoteByte, if_neg hb, List.cons_append, List.cons_append, List.cons_append,
        List.nil_append, unquoteToBytes_escape, ih]

/-- ASCII text is its own bytes. -/
theorem utf8_ascii {cs : List Char} (h : ∀ c ∈ cs, isAscii c = true) :
    utf8 cs = cs.map fun c => UInt8.ofNat c.toNat := by
  induction cs with
  | nil => rfl
  | cons c cs ih =>
    have hc : c.toNat < 128 := by simpa [isAscii] using h c List.mem_cons_self
    have hsize : c.utf8Size = 1 := Char.utf8Size_eq_one_iff.mpr (by
      rw [UInt32.le_iff_toNat_le]
      exact Nat.le_of_lt_succ hc)
    rw [utf8, List.flatMap_cons, String.utf8EncodeChar_eq_singleton hsize, ← utf8,
      ih fun d hd => h d (List.mem_cons_of_mem _ hd)]
    rfl

theorem unquoteToBytes_of_notMem {cs : List Char} (h : '%' ∉ cs) :
    unquoteToBytes cs = cs.map fun c => UInt8.ofNat c.toNat := by
  induction cs with
  | nil => rfl
  | cons c cs ih =>
    rw [List.mem_cons, not_or] at h
    rw [unquoteToBytes_cons (Ne.symm h.1), ih h.2, List.map_cons]

/-- ASCII text is decoded as a whole. -/
theorem unquote_ascii {cs : List Char} (h : ∀ c ∈ cs, isAscii c = true) :
    unquote cs = decodeUtf8 (unquoteToBytes cs) := by
  unfold unquote
  split_ifs with hpercent
  · have hne : cs ≠ [] := List.ne_nil_of_mem hpercent
    have hchain : cs.IsChain fun a b => (isAscii a == isAscii b) = true := by
      refine List.Pairwise.isChain (List.pairwise_of_forall_mem_list fun a ha b hb => ?_)
      rw [h a ha, h b hb]
      rfl
    rw [List.splitBy_of_isChain hne hchain, List.flatMap_singleton]
    obtain ⟨c, rest, rfl⟩ := List.exists_cons_of_ne_nil hne
    exact if_pos (h c List.mem_cons_self)
  · rw [unquoteToBytes_of_notMem hpercent, ← utf8_ascii h, decodeUtf8_utf8]

/-- What a quoted text is written with. -/
def isQuoted (c : Char) : Bool :=
  c.isAlphanum || c = '_' || c = '.' || c = '-' || c = '~' || c = '%'

/-- What a quoted query value is written with. -/
def isQuotedPlus (c : Char) : Bool := isQuoted c || c = '+'

set_option maxRecDepth 4096 in
theorem safeBytes_alwaysSafe : SafeBytes alwaysSafe := by
  have hall : ∀ n < 256, alwaysSafe (UInt8.ofNat n) = true → n < 128 ∧ n ≠ 37 := by decide
  intro b hb
  exact hall b.toNat b.toNat_lt (by rwa [UInt8.ofNat_toNat])

theorem safeBytes_plusSafe : SafeBytes plusSafe := by
  intro b hb
  rcases Bool.or_eq_true_iff.mp hb with hb | hb
  · exact safeBytes_alwaysSafe b hb
  · rw [decide_eq_true_iff.mp hb]
    decide

set_option maxRecDepth 4096 in
theorem all_quoteByte (b : UInt8) :
    (quoteByte alwaysSafe b).all (fun c => isQuoted c && isAscii c) = true := by
  have hall : ∀ n < 256, (quoteByte alwaysSafe (UInt8.ofNat n)).all
      (fun c => isQuoted c && isAscii c) = true := by decide
  have hb := hall b.toNat b.toNat_lt
  rwa [UInt8.ofNat_toNat] at hb

set_option maxRecDepth 4096 in
/-- Of a value quoted with spaces: the space becomes a plus sign, and no other plus sign occurs. -/
theorem all_quoteByte_plus (b : UInt8) : (quoteByte plusSafe b).all (fun c =>
    isQuotedPlus (if c = ' ' then '+' else c) && isAscii c && c != '+') = true := by
  have hall : ∀ n < 256, (quoteByte plusSafe (UInt8.ofNat n)).all (fun c =>
      isQuotedPlus (if c = ' ' then '+' else c) && isAscii c && c != '+') = true := by decide
  have hb := hall b.toNat b.toNat_lt
  rwa [UInt8.ofNat_toNat] at hb

theorem quote_chars (cs : List Char) : ∀ c ∈ quote cs, isQuoted c = true ∧ isAscii c = true := by
  intro c hc
  obtain ⟨b, -, hb⟩ := List.mem_flatMap.mp hc
  exact Bool.and_eq_true_iff.mp (List.all_eq_true.mp (all_quoteByte b) c hb)

/-- **A quoted text is read back.** -/
theorem unquote_quote (cs : List Char) : unquote (quote cs) = cs := by
  rw [unquote_ascii fun c hc => (quote_chars cs c hc).2, quote,
    unquoteToBytes_quoted safeBytes_alwaysSafe, decodeUtf8_utf8]

theorem quotePlus_chars (cs : List Char) : ∀ c ∈ quotePlus cs, isQuotedPlus c = true := by
  intro c hc
  obtain ⟨d, hd, rfl⟩ := List.mem_map.mp hc
  obtain ⟨b, -, hb⟩ := List.mem_flatMap.mp hd
  have hall := List.all_eq_true.mp (all_quoteByte_plus b) d hb
  rw [Bool.and_eq_true, Bool.and_eq_true] at hall
  exact hall.1.1

/-- **A quoted query value is read back.** -/
theorem unquotePlus_quotePlus (cs : List Char) : unquotePlus (quotePlus cs) = cs := by
  have hchars : ∀ c ∈ (utf8 cs).flatMap (quoteByte plusSafe), isAscii c = true ∧ c ≠ '+' := by
    intro c hc
    obtain ⟨b, -, hb⟩ := List.mem_flatMap.mp hc
    have hall := List.all_eq_true.mp (all_quoteByte_plus b) c hb
    rw [Bool.and_eq_true, Bool.and_eq_true] at hall
    exact ⟨hall.1.2, by simpa using hall.2⟩
  -- The plus signs are exactly the spaces.
  have hspaces : (quotePlus cs).map (fun c => if c = '+' then ' ' else c) =
      (utf8 cs).flatMap (quoteByte plusSafe) := by
    rw [quotePlus, List.map_map]
    refine (List.map_congr_left fun c hc => ?_).trans (List.map_id _)
    have hplus := (hchars c hc).2
    by_cases hspace : c = ' '
    · rw [hspace]
      rfl
    · show (if (if c = ' ' then '+' else c) = '+' then ' ' else (if c = ' ' then '+' else c)) = c
      rw [if_neg hspace, if_neg hplus]
  rw [unquotePlus, hspaces, unquote_ascii fun c hc => (hchars c hc).1,
    unquoteToBytes_quoted safeBytes_plusSafe, decodeUtf8_utf8]

/-! ### Query strings -/

/-- `urlencode(pairs)` -/
def urlencode (pairs : List (List Char × List Char)) : List Char :=
  ['&'].intercalate (pairs.map fun kv => quotePlus kv.1 ++ '=' :: quotePlus kv.2)

/-- `parse_qsl(query)`: a field without a value is dropped. -/
def parseQsl (query : List Char) : List (List Char × List Char) :=
  (query.splitOn '&').filterMap fun field =>
    if after '=' field = [] then none
    else some (unquotePlus (before '=' field), unquotePlus (after '=' field))

theorem quotePlus_eq_nil_iff {cs : List Char} : quotePlus cs = [] ↔ cs = [] := by
  constructor
  · intro h
    have hback := unquotePlus_quotePlus cs
    rw [h] at hback
    exact hback.symm
  · rintro rfl
    rfl

theorem notMem_quotePlus {c : Char} (hc : isQuotedPlus c = false) (cs : List Char) :
    c ∉ quotePlus cs := by
  intro hm
  rw [quotePlus_chars cs c hm] at hc
  cases hc

/-- **A query string is read back, less the fields without a value.** -/
theorem parseQsl_urlencode (pairs : List (List Char × List Char)) :
    parseQsl (urlencode pairs) = pairs.filter fun kv => kv.2 ≠ [] := by
  cases pairs with
  | nil => rfl
  | cons kv pairs =>
    have hsplit : (urlencode (kv :: pairs)).splitOn '&' =
        (kv :: pairs).map fun kv => quotePlus kv.1 ++ '=' :: quotePlus kv.2 := by
      refine List.splitOn_intercalate '&' (fun field hfield => ?_) (by simp)
      obtain ⟨p, -, rfl⟩ := List.mem_map.mp hfield
      rw [List.mem_append, List.mem_cons, not_or, not_or]
      exact ⟨notMem_quotePlus rfl _, by decide, notMem_quotePlus rfl _⟩
    rw [parseQsl, hsplit, List.filterMap_map, ← List.filterMap_eq_filter]
    congr 1
    funext p
    have heq : '=' ∉ quotePlus p.1 := notMem_quotePlus rfl _
    simp only [Function.comp_apply, before_append heq, after_append heq, quotePlus_eq_nil_iff,
      unquotePlus_quotePlus]
    by_cases hp : p.2 = []
    · simp [Option.guard, hp]
    · simp [Option.guard, hp]

/-- The value of a field of a query string that was written with each key once. -/
theorem lookup_urlencode {pairs : List (List Char × List Char)} (hnodup : (pairs.map Prod.fst).Nodup)
    (key : List Char) : (parseQsl (urlencode pairs)).lookup key =
      (pairs.lookup key).filter fun value => value ≠ [] := by
  rw [parseQsl_urlencode]
  induction pairs with
  | nil => rfl
  | cons kv pairs ih =>
    obtain ⟨hfresh, hnodup⟩ := List.nodup_cons.mp hnodup
    by_cases hkey : key = kv.1
    · subst hkey
      rw [List.lookup_cons_self]
      by_cases hvalue : kv.2 = []
      · -- Dropped, and the key does not occur again.
        have hnone : pairs.lookup kv.1 = none := by
          rw [List.lookup_eq_none_iff]
          intro q hq
          refine bne_iff_ne.mpr fun heq => hfresh ?_
          rw [heq]
          exact List.mem_map_of_mem hq
        rw [List.filter_cons_of_neg (by simp [hvalue]), ih hnodup, hnone]
        simp [Option.filter, hvalue]
      · rw [List.filter_cons_of_pos (by simp [hvalue]), List.lookup_cons_self]
        simp [Option.filter, hvalue]
    · have hbeq : (key == kv.1) = false := beq_eq_false_iff_ne.mpr hkey
      rw [List.lookup_cons, hbeq]
      dsimp only
      rw [← ih hnodup]
      by_cases hvalue : kv.2 = []
      · rw [List.filter_cons_of_neg (by simp [hvalue])]
      · rw [List.filter_cons_of_pos (by simp [hvalue]), List.lookup_cons, hbeq]

theorem urlencode_chars (pairs : List (List Char × List Char)) :
    ∀ c ∈ urlencode pairs, isQuotedPlus c = true ∨ c = '&' ∨ c = '=' := by
  have hfield (kv : List Char × List Char) :
      ∀ c ∈ quotePlus kv.1 ++ '=' :: quotePlus kv.2, isQuotedPlus c = true ∨ c = '&' ∨ c = '=' := by
    intro c hc
    rcases List.mem_append.mp hc with hc | hc
    · exact .inl (quotePlus_chars _ c hc)
    · rcases List.mem_cons.mp hc with rfl | hc
      · exact .inr (.inr rfl)
      · exact .inl (quotePlus_chars _ c hc)
  induction pairs with
  | nil =>
    intro c hc
    cases hc
  | cons kv pairs ih =>
    intro c hc
    cases pairs with
    | nil =>
      rw [urlencode, List.map_cons, List.map_nil, List.intercalate_singleton] at hc
      exact hfield kv c hc
    | cons kv' pairs =>
      have hshape : urlencode (kv :: kv' :: pairs) =
          quotePlus kv.1 ++ '=' :: quotePlus kv.2 ++ ['&'] ++ urlencode (kv' :: pairs) :=
        List.intercalate_cons_cons
      rw [hshape, List.mem_append, List.mem_append] at hc
      rcases hc with (hc | hc) | hc
      · exact hfield kv c hc
      · exact .inr (.inl (List.mem_singleton.mp hc))
      · exact ih c hc

/-! ### The parts of a URL -/

/-- What the parser asks of Unicode and of address literals. -/
structure Library where
  /-- `str.lower` -/
  lower : List Char → List Char
  /-- `unicodedata.normalize("NFKC", text)` -/
  nfkc : List Char → List Char
  /-- Whether what stands in brackets is an IPv6 address or of a later version. -/
  bracketed : List Char → Bool
  /-- Lower-casing brings in no ASCII character other than a letter. -/
  lower_ascii : ∀ cs, ∀ c ∈ lower cs, isAscii c = true → c.isAlpha = false → c ∈ cs

/-- What `urlparse` finds in a URL of a scheme without parameters. -/
structure Parsed where
  scheme : List Char
  netloc : List Char
  path : List Char
  query : List Char

def isSchemeChar (c : Char) : Bool := c.isAlphanum || c = '+' || c = '-' || c = '.'

/-- The characters that are removed wherever they occur. -/
def isUnsafe (c : Char) : Bool := c = '\t' || c = '\r' || c = '\n'

/-- The characters that end the network location. -/
def isDelim (c : Char) : Bool := c = '/' || c = '?' || c = '#'

/-- The scheme in lower case and what follows it, where there is one. -/
def splitScheme (url : List Char) : List Char × List Char :=
  let scheme := before ':' url
  if ':' ∈ url ∧ scheme.head?.any Char.isAlpha ∧ scheme.all isSchemeChar then
    (scheme.map Char.toLower, after ':' url)
  else ([], url)

def splitNetloc (url : List Char) : List Char × List Char :=
  match url with
  | '/' :: '/' :: rest => (rest.takeWhile (!isDelim ·), rest.dropWhile (!isDelim ·))
  | _ => ([], url)

/-- Brackets come in pairs, around an address. -/
def bracketsOk (lib : Library) (netloc : List Char) : Bool :=
  if '[' ∈ netloc then
    if ']' ∈ netloc then lib.bracketed (before ']' (after '[' netloc)) else false
  else decide (']' ∉ netloc)

/-- No delimiter hides in a compatibility character. -/
def checkNetloc (lib : Library) (netloc : List Char) : Bool :=
  if netloc.all isAscii then true
  else
    let n := netloc.filter fun c => !(c = '@' || c = ':' || c = '#' || c = '?')
    if lib.nfkc n = n then true
    else !(lib.nfkc n).any fun c => c = '/' || c = '?' || c = '#' || c = '@' || c = ':'

/-- `urlparse(url)`, or none for a `ValueError`. -/
def urlparse (lib : Library) (url : List Char) : Option Parsed :=
  let url := (url.dropWhile fun c => c.toNat ≤ 0x20).filter (!isUnsafe ·)
  let (scheme, url) := splitScheme url
  let (netloc, url) := splitNetloc url
  if bracketsOk lib netloc && checkNetloc lib netloc then
    let url := before '#' url
    some ⟨scheme, netloc, before '?' url, after '?' url⟩
  else none

/-- The host and the port as texts. -/
def hostinfo (netloc : List Char) : List Char × List Char :=
  let info := afterLast '@' netloc
  if '[' ∈ info then
    let bracketed := after '[' info
    (before ']' bracketed, after ':' (after ']' bracketed))
  else (before ':' info, after ':' info)

/-- `parsed.hostname`: in lower case, save for a zone; empty for `None`. -/
def hostname (lib : Library) (netloc : List Char) : List Char :=
  let host := (hostinfo netloc).1
  if '%' ∈ host then lib.lower (before '%' host) ++ '%' :: after '%' host else lib.lower host

/-- `parsed.port`: the outer option is none for a `ValueError`, the inner for `None`. -/
def port (netloc : List Char) : Option (Option ℕ) :=
  let text := (hostinfo netloc).2
  if text = [] then some none
  else if text.all Char.isDigit then
    if Nat.ofDigitChars 10 text 0 ≤ 65535 then some (some (Nat.ofDigitChars 10 text 0)) else none
  else none

/-- `parsed.username`, or empty for `None`. -/
def username (netloc : List Char) : List Char :=
  if '@' ∈ netloc then before ':' (beforeLast '@' netloc) else []

/-- `parsed.password`, or empty for `None`. -/
def password (netloc : List Char) : List Char :=
  if '@' ∈ netloc then after ':' (beforeLast '@' netloc) else []

/-! ### A URL that was written from its parts -/

/-- What is written before the `@`. -/
def isUserinfo (c : Char) : Bool := isQuoted c || c = ':'

/-- What the text of an integer is written with. -/
def isIntChar (c : Char) : Bool := c.isDigit || c = '-'

/-- A character that a host is not read back with. -/
def isHostBreak (c : Char) : Bool :=
  isUnsafe c || isDelim c || c = '@' || c = ':' || c = '[' || c = ']'

/-- `userinfo@host:port` -/
def location (userinfo host port : List Char) : List Char :=
  userinfo ++ '@' :: (host ++ ':' :: port)

/-- A host that is read back as it was written. -/
structure PlainHost (lib : Library) (userinfo host port : List Char) : Prop where
  chars : ∀ c ∈ host, isHostBreak c = false
  lower : lib.lower (before '%' host) = before '%' host
  netloc : checkNetloc lib (location userinfo host port) = true

/-- A scheme that is kept. -/
structure PlainScheme (scheme : List Char) : Prop where
  head : scheme.head?.any Char.isAlpha = true
  chars : scheme.all isSchemeChar = true
  lower : scheme.map Char.toLower = scheme
  plain : scheme.all (fun c => !isUnsafe c && c != ':' && decide (0x20 < c.toNat)) = true

section

variable {lib : Library} {scheme userinfo host port : List Char}

/-- After the scheme, the parser looks at what is left without unsafe characters. -/
theorem urlparse_scheme (hscheme : PlainScheme scheme) (tail : List Char) :
    urlparse lib (scheme ++ ':' :: '/' :: '/' :: tail) =
      if bracketsOk lib ((tail.filter (!isUnsafe ·)).takeWhile (!isDelim ·)) &&
          checkNetloc lib ((tail.filter (!isUnsafe ·)).takeWhile (!isDelim ·)) then
        some ⟨scheme, (tail.filter (!isUnsafe ·)).takeWhile (!isDelim ·),
          before '?' (before '#' ((tail.filter (!isUnsafe ·)).dropWhile (!isDelim ·))),
          after '?' (before '#' ((tail.filter (!isUnsafe ·)).dropWhile (!isDelim ·)))⟩
      else none := by
  have hplain : ∀ c ∈ scheme, isUnsafe c = false ∧ c ≠ ':' ∧ 0x20 < c.toNat := by
    intro c hc
    have hall := List.all_eq_true.mp hscheme.plain c hc
    simp only [Bool.and_eq_true, Bool.not_eq_true', bne_iff_ne, decide_eq_true_iff] at hall
    exact ⟨hall.1.1, hall.1.2, hall.2⟩
  have hcolon : ':' ∉ scheme := fun hm => (hplain ':' hm).2.1 rfl
  have hdrop : (scheme ++ ':' :: '/' :: '/' :: tail).dropWhile (fun c => decide (c.toNat ≤ 0x20)) =
      scheme ++ ':' :: '/' :: '/' :: tail := by
    refine Text.dropWhile_eq_self fun c hc => ?_
    have hmem : c = ':' ∨ c ∈ scheme := by
      cases scheme with
      | nil => exact .inl (Option.some.inj hc).symm
      | cons d ds => exact .inr (Option.some.inj hc ▸ List.mem_cons_self)
    rcases hmem with rfl | hmem
    · rfl
    · have hlt := (hplain c hmem).2.2
      simp only [decide_eq_false_iff_not]
      omega
  have hfilter : (scheme ++ ':' :: '/' :: '/' :: tail).filter (!isUnsafe ·) =
      scheme ++ ':' :: '/' :: '/' :: tail.filter (!isUnsafe ·) := by
    rw [List.filter_append, List.filter_eq_self.mpr fun c hc => by rw [(hplain c hc).1]; rfl]
    rfl
  have hsplit (t : List Char) : splitScheme (scheme ++ ':' :: '/' :: '/' :: t) =
      (scheme, '/' :: '/' :: t) := by
    rw [splitScheme, before_append hcolon, after_append hcolon,
      if_pos ⟨by simp, hscheme.head, hscheme.chars⟩, hscheme.lower]
  rw [urlparse, hdrop, hfilter, hsplit]
  rfl

/-- A host is read with no ASCII character, letters apart, that was not written. -/
theorem mem_hostname {netloc : List Char} {c : Char} (hc : c ∈ hostname lib netloc)
    (hascii : isAscii c = true) (hletter : c.isAlpha = false) : c ∈ (hostinfo netloc).1 := by
  unfold hostname at hc
  dsimp only at hc
  split_ifs at hc with hzone
  · rcases List.mem_append.mp hc with hc | hc
    · exact mem_of_mem_before (lib.lower_ascii _ c hc hascii hletter)
    · rcases List.mem_cons.mp hc with rfl | hc
      · exact hzone
      · exact mem_of_mem_after hc
  · exact lib.lower_ascii _ c hc hascii hletter

theorem mem_hostinfo {netloc : List Char} {c : Char} (hc : c ∈ (hostinfo netloc).1) :
    c ∈ afterLast '@' netloc := by
  unfold hostinfo at hc
  dsimp only at hc
  split_ifs at hc
  · exact mem_of_mem_after (mem_of_mem_before hc)
  · exact mem_of_mem_before hc

/-- The texts around the host hold nothing that the parser looks for. -/
theorem location_parts (huser : ∀ c ∈ userinfo, isUserinfo c = true)
    (hport : ∀ c ∈ port, isIntChar c = true) {c : Char} (hc : c ∈ location userinfo host port)
    (hu : isUserinfo c = false) (hi : isIntChar c = false) : c = '@' ∨ c ∈ host := by
  rcases List.mem_append.mp hc with hc | hc
  · rw [huser c hc] at hu
    cases hu
  · rcases List.mem_cons.mp hc with rfl | hc
    · exact .inl rfl
    · rcases List.mem_append.mp hc with hc | hc
      · exact .inr hc
      · rcases List.mem_cons.mp hc with rfl | hc
        · cases hu
        · rw [hport c hc] at hi
          cases hi

theorem isUserinfo_of_unsafe {c : Char} (h : isUnsafe c = true ∨ isDelim c = true) :
    isUserinfo c = false ∧ isIntChar c = false ∧ c ≠ '@' := by
  simp only [isUnsafe, isDelim, Bool.or_eq_true, decide_eq_true_iff] at h
  rcases h with (((rfl | rfl) | rfl) | ((rfl | rfl) | rfl)) <;> decide

/-- The location is what stands before the next slash, once unsafe characters are gone. -/
theorem location_split (huser : ∀ c ∈ userinfo, isUserinfo c = true)
    (hport : ∀ c ∈ port, isIntChar c = true)
    (hhost : ∀ c ∈ host, isUnsafe c = false ∧ isDelim c = false) (rest : List Char) :
    let tail := (location userinfo host port ++ '/' :: rest).filter (!isUnsafe ·)
    tail.takeWhile (!isDelim ·) = location userinfo host port ∧
      tail.dropWhile (!isDelim ·) = '/' :: rest.filter (!isUnsafe ·) := by
  have hplain : ∀ c ∈ location userinfo host port, isUnsafe c = false ∧ isDelim c = false := by
    intro c hc
    by_contra hbad
    have hor : isUnsafe c = true ∨ isDelim c = true := by
      by_cases hu : isUnsafe c = true
      · exact .inl hu
      · refine .inr (Bool.not_eq_false _ ▸ fun hd => hbad ⟨Bool.eq_false_iff.mpr hu, hd⟩)
    obtain ⟨hu, hi, hat⟩ := isUserinfo_of_unsafe hor
    have hmem := (location_parts huser hport hc hu hi).resolve_left hat
    exact hbad (hhost c hmem)
  have htail : (location userinfo host port ++ '/' :: rest).filter (!isUnsafe ·) =
      location userinfo host port ++ '/' :: rest.filter (!isUnsafe ·) := by
    rw [List.filter_append, List.filter_eq_self.mpr fun c hc => by rw [(hplain c hc).1]; rfl]
    rfl
  have hloc : ∀ c ∈ location userinfo host port, (!isDelim c) = true := by
    intro c hc
    rw [(hplain c hc).2]
    rfl
  dsimp only
  rw [htail]
  constructor
  · rw [List.takeWhile_append_of_pos hloc, List.takeWhile_cons_of_neg (by decide),
      List.append_nil]
  · rw [List.dropWhile_append_of_pos hloc, List.dropWhile_cons_of_neg (by decide)]

/-- The last `@` of a location is the one before the host. -/
theorem afterLast_location (hport : ∀ c ∈ port, isIntChar c = true) (hhost : '@' ∉ host) :
    afterLast '@' (location userinfo host port) = host ++ ':' :: port := by
  refine afterLast_append ?_
  rw [List.mem_append, List.mem_cons, not_or, not_or]
  exact ⟨hhost, by decide, Text.notMem_of_forall hport rfl⟩

theorem beforeLast_location (hport : ∀ c ∈ port, isIntChar c = true) (hhost : '@' ∉ host) :
    beforeLast '@' (location userinfo host port) = userinfo := by
  refine beforeLast_append ?_
  rw [List.mem_append, List.mem_cons, not_or, not_or]
  exact ⟨hhost, by decide, Text.notMem_of_forall hport rfl⟩

/-- **A host that is read back is plain.** -/
theorem plain_of_hostname (hscheme : PlainScheme scheme) (huser : ∀ c ∈ userinfo, isUserinfo c = true)
    (hport : ∀ c ∈ port, isIntChar c = true) {rest : List Char} {p : Parsed}
    (hparse : urlparse lib (scheme ++ ':' :: '/' :: '/' ::
      (location userinfo host port ++ '/' :: rest)) = some p)
    (hhost : hostname lib p.netloc = host) : PlainHost lib userinfo host port := by
  rw [urlparse_scheme hscheme] at hparse
  split_ifs at hparse with hok
  obtain ⟨hbrackets, hcheck⟩ := Bool.and_eq_true_iff.mp hok
  obtain rfl := Option.some.inj hparse
  dsimp only at hhost
  -- Whatever ends or shortens a location is not in the host that is read.
  have hread : ∀ c ∈ host, isAscii c = true → c.isAlpha = false →
      isUnsafe c = false ∧ isDelim c = false ∧ c ≠ '@' := by
    intro c hc hascii hletter
    rw [← hhost] at hc
    have hinfo := mem_hostinfo (mem_hostname hc hascii hletter)
    have hnetloc := mem_of_mem_afterLast hinfo
    have hdelim := List.mem_takeWhile_imp hnetloc
    have hfilter := (List.mem_filter.mp ((List.takeWhile_prefix _).subset hnetloc)).2
    refine ⟨by simpa using hfilter, by simpa using hdelim, ?_⟩
    rintro rfl
    exact notMem_afterLast '@' _ hinfo
  have hclean : ∀ c ∈ host, isUnsafe c = false ∧ isDelim c = false := by
    intro c hc
    by_contra hbad
    have hascii : isAscii c = true ∧ c.isAlpha = false := by
      by_cases hu : isUnsafe c = true
      · simp only [isUnsafe, Bool.or_eq_true, decide_eq_true_iff] at hu
        rcases hu with (rfl | rfl) | rfl <;> decide
      · by_cases hd : isDelim c = true
        · simp only [isDelim, Bool.or_eq_true, decide_eq_true_iff] at hd
          rcases hd with (rfl | rfl) | rfl <;> decide
        · exact absurd ⟨Bool.eq_false_iff.mpr hu, Bool.eq_false_iff.mpr hd⟩ hbad
    have hgood := hread c hc hascii.1 hascii.2
    exact hbad ⟨hgood.1, hgood.2.1⟩
  have hat : '@' ∉ host := fun hm => (hread '@' hm rfl rfl).2.2 rfl
  rw [(location_split huser hport hclean rest).1] at hbrackets hcheck hhost
  have hinfo : (hostinfo (location userinfo host port)) =
      if '[' ∈ host ++ ':' :: port then
        (before ']' (after '[' (host ++ ':' :: port)),
          after ':' (after ']' (after '[' (host ++ ':' :: port))))
      else (before ':' (host ++ ':' :: port), after ':' (host ++ ':' :: port)) := by
    rw [hostinfo, afterLast_location hport hat]
  have hbracket {c : Char} (hc : c = '[' ∨ c = ']') (hm : c ∈ location userinfo host port) :
      c ∈ host := by
    rcases hc with rfl | rfl
    · exact (location_parts huser hport hm rfl rfl).resolve_left (by decide)
    · exact (location_parts huser hport hm rfl rfl).resolve_left (by decide)
  have hin {c : Char} (hm : c ∈ host) : c ∈ location userinfo host port :=
    List.mem_append_right _ (List.mem_cons_of_mem _ (List.mem_append_left _ hm))
  have hopen : '[' ∉ host := by
    intro hm
    rw [bracketsOk, if_pos (hin hm)] at hbrackets
    split_ifs at hbrackets with hclose
    have hclosed := hbracket (.inr rfl) hclose
    rw [← hhost] at hclosed
    have hfirst := mem_hostname hclosed rfl rfl
    rw [hinfo, if_pos (List.mem_append_left _ hm)] at hfirst
    exact notMem_before _ _ hfirst
  have hclose : ']' ∉ host := by
    intro hm
    rw [bracketsOk, if_neg fun h => hopen (hbracket (.inl rfl) h), decide_eq_true_iff] at hbrackets
    exact hbrackets (hin hm)
  have hnone : '[' ∉ host ++ ':' :: port := by
    rw [List.mem_append, List.mem_cons, not_or, not_or]
    exact ⟨hopen, by decide, Text.notMem_of_forall hport rfl⟩
  rw [if_neg hnone] at hinfo
  have hcolon : ':' ∉ host := by
    intro hm
    rw [← hhost] at hm
    have hfirst := mem_hostname hm rfl rfl
    rw [hinfo] at hfirst
    exact notMem_before _ _ hfirst
  refine ⟨fun c hc => ?_, ?_, hcheck⟩
  · have hne {d : Char} (hd : d ∉ host) : c ≠ d := fun h => hd (h ▸ hc)
    simp only [isHostBreak, (hclean c hc).1, (hclean c hc).2, hne hat, hne hcolon, hne hopen,
      hne hclose, decide_false, Bool.or_false]
  · have hfirst : (hostinfo (location userinfo host port)).1 = host := by
      rw [hinfo]
      exact before_append hcolon
    rw [hostname, hfirst] at hhost
    split_ifs at hhost with hzone
    · exact List.append_cancel_right (hhost.trans (before_append_after hzone).symm)
    · rw [before_of_notMem hzone]
      exact hhost

namespace PlainHost

variable (h : PlainHost lib userinfo host port)
include h

theorem notMem {c : Char} (hc : isHostBreak c = true) : c ∉ host := by
  intro hm
  rw [h.chars c hm] at hc
  cases hc

theorem clean : ∀ c ∈ host, isUnsafe c = false ∧ isDelim c = false := by
  intro c hc
  have hchar := h.chars c hc
  simp only [isHostBreak, Bool.or_eq_false_iff] at hchar
  exact ⟨hchar.1.1.1.1.1, hchar.1.1.1.1.2⟩

/-- **A plain host, and what is around it, is read back.** -/
theorem urlparse_eq (hscheme : PlainScheme scheme) (huser : ∀ c ∈ userinfo, isUserinfo c = true)
    (hport : ∀ c ∈ port, isIntChar c = true) (rest : List Char) :
    urlparse lib (scheme ++ ':' :: '/' :: '/' :: (location userinfo host port ++ '/' :: rest)) =
      some ⟨scheme, location userinfo host port,
        before '?' (before '#' ('/' :: rest.filter (!isUnsafe ·))),
        after '?' (before '#' ('/' :: rest.filter (!isUnsafe ·)))⟩ := by
  have hbracket {c : Char} (hc : c = '[' ∨ c = ']') : c ∉ location userinfo host port := by
    intro hm
    rcases hc with rfl | rfl
    · exact h.notMem rfl ((location_parts huser hport hm rfl rfl).resolve_left (by decide))
    · exact h.notMem rfl ((location_parts huser hport hm rfl rfl).resolve_left (by decide))
  obtain ⟨hnetloc, hrest⟩ := location_split huser hport h.clean rest
  have hok : bracketsOk lib (location userinfo host port) = true := by
    rw [bracketsOk, if_neg (hbracket (.inl rfl)), decide_eq_true_iff]
    exact hbracket (.inr rfl)
  rw [urlparse_scheme hscheme, hnetloc, hrest, hok, h.netloc]
  rfl

theorem hostinfo_eq (hport : ∀ c ∈ port, isIntChar c = true) :
    hostinfo (location userinfo host port) = (host, port) := by
  have hnone : '[' ∉ host ++ ':' :: port := by
    rw [List.mem_append, List.mem_cons, not_or, not_or]
    exact ⟨h.notMem rfl, by decide, Text.notMem_of_forall hport rfl⟩
  rw [hostinfo, afterLast_location hport (h.notMem rfl)]
  dsimp only
  rw [if_neg hnone, before_append (h.notMem rfl), after_append (h.notMem rfl)]

theorem hostname_eq (hport : ∀ c ∈ port, isIntChar c = true) :
    hostname lib (location userinfo host port) = host := by
  rw [hostname, h.hostinfo_eq hport]
  dsimp only
  split_ifs with hzone
  · rw [h.lower]
    exact before_append_after hzone
  · have hlower := h.lower
    rwa [before_of_notMem hzone] at hlower

theorem username_eq (hport : ∀ c ∈ port, isIntChar c = true) :
    username (location userinfo host port) = before ':' userinfo := by
  have hat : '@' ∈ location userinfo host port := List.mem_append_right _ List.mem_cons_self
  rw [username, if_pos hat, beforeLast_location hport (h.notMem rfl)]

theorem password_eq (hport : ∀ c ∈ port, isIntChar c = true) :
    password (location userinfo host port) = after ':' userinfo := by
  have hat : '@' ∈ location userinfo host port := List.mem_append_right _ List.mem_cons_self
  rw [password, if_pos hat, beforeLast_location hport (h.notMem rfl)]

end PlainHost

end

/-! ### The path and the query -/

/-- `text.strip("/")` -/
def stripSlashes (cs : List Char) : List Char :=
  ((cs.dropWhile (· = '/')).reverse.dropWhile (· = '/')).reverse

/-- A path that is read back as it was written. -/
structure PlainPath (path : List Char) : Prop where
  chars : ∀ c ∈ path, isUnsafe c = false ∧ c ≠ '?' ∧ c ≠ '#'
  head : path.head? ≠ some '/'
  last : path.getLast? ≠ some '/'

theorem mem_of_mem_stripSlashes {c : Char} {cs : List Char} (h : c ∈ stripSlashes cs) : c ∈ cs := by
  rw [stripSlashes, List.mem_reverse] at h
  have hdrop := (List.dropWhile_suffix _).subset h
  exact (List.dropWhile_suffix _).subset (List.mem_reverse.mp hdrop)

theorem dropWhile_head (cs : List Char) : (cs.dropWhile (· = '/')).head? ≠ some '/' := by
  intro h
  have hhead := List.head?_dropWhile_not (fun c => decide (c = '/')) cs
  rw [h] at hhead
  cases hhead

/-- What is left has no slash at its ends. -/
theorem stripSlashes_ends (cs : List Char) :
    (stripSlashes cs).head? ≠ some '/' ∧ (stripSlashes cs).getLast? ≠ some '/' := by
  constructor
  · intro h
    -- What is left starts as the text does once its first slashes are gone.
    obtain ⟨removed, hsuffix⟩ :=
      List.dropWhile_suffix (l := (cs.dropWhile (· = '/')).reverse) fun c => decide (c = '/')
    have hprefix := congrArg List.reverse hsuffix
    rw [List.reverse_append, List.reverse_reverse] at hprefix
    refine dropWhile_head cs ?_
    rw [← hprefix, List.head?_append]
    rw [stripSlashes] at h
    rw [h]
    rfl
  · rw [stripSlashes, List.getLast?_reverse]
    exact dropWhile_head _

theorem stripSlashes_slash {path : List Char} (hhead : path.head? ≠ some '/')
    (hlast : path.getLast? ≠ some '/') : stripSlashes ('/' :: path) = path := by
  have hfront : ('/' :: path).dropWhile (· = '/') = path := by
    rw [List.dropWhile_cons_of_pos (by decide)]
    exact Text.dropWhile_eq_self fun c hc => by
      simp only [decide_eq_false_iff_not]
      rintro rfl
      exact hhead hc
  have hback : path.reverse.dropWhile (· = '/') = path.reverse := by
    refine Text.dropWhile_eq_self fun c hc => ?_
    simp only [decide_eq_false_iff_not]
    rintro rfl
    rw [List.head?_reverse] at hc
    exact hlast hc
  rw [stripSlashes, hfront, hback, List.reverse_reverse]

/-- The path and the query of `/path?query`, as the parser cuts them. -/
theorem cut_eq {path query : List Char} (hpath : PlainPath path)
    (hquery : ∀ c ∈ query, isUnsafe c = false ∧ c ≠ '#') :
    let url := before '#' ('/' :: (path ++ '?' :: query).filter (!isUnsafe ·))
    stripSlashes (before '?' url) = path ∧ after '?' url = query := by
  have hfilter : (path ++ '?' :: query).filter (!isUnsafe ·) = path ++ '?' :: query := by
    refine List.filter_eq_self.mpr fun c hc => ?_
    rcases List.mem_append.mp hc with hc | hc
    · rw [(hpath.chars c hc).1]
      rfl
    · rcases List.mem_cons.mp hc with rfl | hc
      · rfl
      · rw [(hquery c hc).1]
        rfl
  have hhash : '#' ∉ '/' :: (path ++ '?' :: query) := by
    rw [List.mem_cons, List.mem_append, List.mem_cons, not_or, not_or, not_or]
    exact ⟨by decide, fun hm => (hpath.chars _ hm).2.2 rfl, by decide,
      fun hm => (hquery _ hm).2 rfl⟩
  have hmark : '?' ∉ '/' :: path := by
    rw [List.mem_cons, not_or]
    exact ⟨by decide, fun hm => (hpath.chars _ hm).2.1 rfl⟩
  dsimp only
  rw [hfilter, before_of_notMem hhash, ← List.cons_append, before_append hmark, after_append hmark]
  exact ⟨stripSlashes_slash hpath.head hpath.last, rfl⟩

/-- **A path that is read back is plain.** -/
theorem plain_of_cut {path query : List Char}
    (h : stripSlashes (before '?' (before '#' ('/' :: (path ++ '?' :: query).filter (!isUnsafe ·)))) =
      path) : PlainPath path := by
  refine ⟨fun c hc => ?_, ?_, ?_⟩
  · rw [← h] at hc
    have hmark := mem_of_mem_stripSlashes hc
    have hhash := mem_of_mem_before hmark
    refine ⟨?_, fun heq => notMem_before '?' _ (heq ▸ hmark), fun heq => notMem_before '#' _ (heq ▸ hhash)⟩
    rcases List.mem_cons.mp (mem_of_mem_before hhash) with rfl | hfilter
    · rfl
    · simpa using (List.mem_filter.mp hfilter).2
  · rw [← h]
    exact (stripSlashes_ends _).1
  · rw [← h]
    exact (stripSlashes_ends _).2

end Url
