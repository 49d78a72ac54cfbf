/-
What a failed build is read as.

The trap prints the failing command as it is, so the command may hold framing of its own,
and the parser takes every marker for a candidate record.

* `BuildResult.Reports` — every delivery of the record of a failed build, whole or cut,
  raises `BuildFailedError`, and a whole one carries the log;
* `BuildResult.Harmless`, `BuildResult.Benign` — the commands whose own framing, if they have
  any, changes nothing;
* `BuildResult.reports_iff` — the two are the same.
-/
import TestRange.Orchestrator.BuildResult

namespace TestRange

namespace BuildResult

open Search (find glue Clean)

variable (U : Unicode)

/-! ### Lines -/

/-- The first line. -/
def firstLine (r : Bytes) : Bytes := r.takeWhile (· ≠ 10)

theorem find_newline (r : Bytes) :
    find (ascii "\n") r = if 10 ∈ r then some (firstLine r).length else none :=
  Search.find_singleton

/-- One candidate record, by what follows its marker. -/
theorem judge_eq (final isLast : Bool) (r : Bytes) : judge U final isLast (marker ++ r) =
    if 10 ∈ r then judgeLine U final isLast (marker ++ r) (firstLine r)
    else if final = true then judgeLine U final isLast (marker ++ r) r else .skip := by
  rw [judge, List.drop_left, find_newline]
  by_cases h : (10 : UInt8) ∈ r
  · have htake : r.take (firstLine r).length = firstLine r :=
      (List.prefix_iff_eq_take.mp (List.takeWhile_prefix _)).symm
    rw [if_pos h, if_pos h]
    dsimp only
    rw [htake]
  · rw [if_neg h, if_neg h]

/-- The first line of a beginning that has a line break is the first line. -/
theorem firstLine_mono {r r' : Bytes} (h : r' <+: r) (hmem : 10 ∈ r') : firstLine r' = firstLine r := by
  obtain ⟨t, rfl⟩ := h
  have hne : (r'.takeWhile (· ≠ 10)).length ≠ r'.length := by
    intro hlen
    have heq := (List.takeWhile_prefix (p := (· ≠ (10 : UInt8))) (l := r')).eq_of_length hlen
    have hall : ∀ b ∈ r', (decide (b ≠ 10)) = true := List.takeWhile_eq_self_iff.mp heq
    simpa using hall 10 hmem
  rw [firstLine, firstLine, List.takeWhile_append, if_neg hne]

/-! ### Framed logs -/

/-- A framed log, from its first line on. -/
def block (t : Bytes) : Bytes × Bool :=
  match find (ascii "\n") t with
  | none => ([], false)
  | some n =>
    match find logEnd (t.drop n) with
    | none => ([], false)
    | some m => (decodeTolerant ((t.drop (n + 1)).take (m - 1)), true)

theorem extractLog_eq (segment : Bytes) : extractLog segment =
    match find logBegin segment with
    | none => ([], false)
    | some start => block (segment.drop start) := by
  unfold extractLog
  cases find logBegin segment with
  | none => rfl
  | some start =>
    dsimp only
    unfold block findFrom
    cases find (ascii "\n") (segment.drop start) with
    | none => rfl
    | some n =>
      simp only [Option.map_some, List.drop_drop]
      cases find logEnd (segment.drop (start + n)) with
      | none => rfl
      | some m =>
        simp only [Option.map_some]
        have hslice : (segment.take (start + n + m)).drop (start + n + 1) =
            (segment.drop (start + (n + 1))).take (m - 1) := by
          rw [List.drop_take]
          congr 1
          omega
        rw [hslice]

/-- What stands before a separator adds nothing to the log. -/
theorem extractLog_sep {x : Bytes} {b : UInt8} (hx : ¬logBegin <:+: x) (hb : b ∉ logBegin) (c : Bytes) :
    extractLog (x ++ b :: c) = extractLog c := by
  rw [extractLog_eq, extractLog_eq, Search.find_sep hx hb]
  cases find logBegin c with
  | none => rfl
  | some start =>
    have hdrop : (x ++ b :: c).drop (start + (x.length + 1)) = c.drop start := by
      rw [Nat.add_comm start, ← List.drop_drop, ← List.drop_drop, List.drop_left]
      rfl
    simp only [Option.map_some, hdrop]

theorem block_mono {t t' l : Bytes} (h : block t = (l, true)) (ht : t <+: t') : block t' = (l, true) := by
  unfold block at h ⊢
  cases hn : find (ascii "\n") t with
  | none => simp [hn] at h
  | some n =>
    rw [hn] at h
    rw [Search.find_mono hn ht]
    dsimp only at h ⊢
    obtain ⟨s, rfl⟩ := ht
    obtain ⟨-, hnlen, -⟩ := Search.find_eq_some hn
    cases hm : find logEnd (t.drop n) with
    | none => simp [hm] at h
    | some m =>
      rw [hm] at h
      have hsuffix : t.drop n <+: (t ++ s).drop n := by
        rw [List.drop_append_of_le_length hnlen]
        exact List.prefix_append _ _
      rw [Search.find_mono hm hsuffix]
      dsimp only at h ⊢
      rw [← h]
      obtain ⟨hat, hmlen, -⟩ := Search.find_eq_some hm
      have hlen : m - 1 ≤ (t.drop (n + 1)).length := by
        rw [List.length_drop] at hmlen ⊢
        omega
      have hle : n + 1 ≤ t.length ∨ m - 1 = 0 := by
        rw [List.length_drop] at hmlen
        omega
      rcases hle with hle | hzero
      · rw [List.drop_append_of_le_length hle, List.take_append_of_le_length hlen]
      · rw [hzero, List.take_zero, List.take_zero]

/-- A log that is complete stays what it is when more follows. -/
theorem extractLog_mono {s s' l : Bytes} (h : extractLog s = (l, true)) (hs : s <+: s') :
    extractLog s' = (l, true) := by
  rw [extractLog_eq] at h ⊢
  cases hstart : find logBegin s with
  | none => simp [hstart] at h
  | some start =>
    rw [hstart] at h
    rw [Search.find_mono hstart hs]
    obtain ⟨t, rfl⟩ := hs
    obtain ⟨-, hlen, -⟩ := Search.find_eq_some hstart
    refine block_mono h ?_
    rw [List.drop_append_of_le_length hlen]
    exact List.prefix_append _ _

/-! ### The fail line -/

theorem digits_eq (rc : UInt8) :
    digits rc = (Nat.toDigits 10 rc.toNat).map fun c => UInt8.ofNat c.toNat := by
  have htext : (toString rc.toNat).toList = Nat.toDigits 10 rc.toNat := Nat.toList_repr
  rw [digits, ascii, htext]

theorem digits_spec (rc : UInt8) : (∀ b ∈ digits rc, 48 ≤ b ∧ b ≤ 57) ∧ (digits rc).length ≤ 3 ∧
    digits rc ≠ [] := by
  rw [digits_eq]
  refine ⟨fun b hb => ?_, ?_, ?_⟩
  · obtain ⟨c, hc, rfl⟩ := List.mem_map.mp hb
    have hdigit := Nat.isDigit_of_mem_toDigits (by decide) (by decide) hc
    rw [Char.isDigit, Bool.and_eq_true, decide_eq_true_eq, decide_eq_true_eq] at hdigit
    obtain ⟨hlo, hhi⟩ := hdigit
    have hlo : 48 ≤ c.toNat := UInt32.le_iff_toNat_le.mp hlo
    have hhi : c.toNat ≤ 57 := UInt32.le_iff_toNat_le.mp hhi
    have hsmall : (UInt8.ofNat c.toNat).toNat = c.toNat := UInt8.toNat_ofNat_of_lt' (show c.toNat < 256 by omega)
    exact ⟨UInt8.le_iff_toNat_le.mpr (by rw [hsmall]; exact hlo),
      UInt8.le_iff_toNat_le.mpr (by rw [hsmall]; exact hhi)⟩
  · have hlt := rc.toNat_lt
    rw [List.length_map, Nat.length_toDigits_le_iff (by decide) (by decide)]
    omega
  · rw [Ne, List.map_eq_nil_iff]
    exact Nat.toDigits_ne_nil

/-- The bytes of a text of ASCII characters are small. -/
theorem ascii_small {s : String} (h : s.toList.all (·.toNat < 128) = true) :
    ∀ b ∈ ascii s, b < 0x80 := by
  intro b hb
  obtain ⟨c, hc, rfl⟩ := List.mem_map.mp hb
  have hlt : c.toNat < 128 := by simpa using List.all_eq_true.mp h c hc
  refine UInt8.lt_iff_toNat_lt.mpr ?_
  rw [UInt8.toNat_ofNat', Nat.mod_eq_of_lt (lt_trans hlt (by decide))]
  exact hlt

/-- A line that starts as the trap starts it is a `fail` line. -/
theorem tag_fail {line : Bytes} (h : ascii " fail " <+: line) : tag line = "fail".toList := by
  obtain ⟨z, rfl⟩ := h
  rw [tag, lineText, Text.firstWord_strip, Text.decode_append (ascii_small rfl)]
  rfl

theorem ascii_of_digit {c : UInt8} (hc : 48 ≤ c ∧ c ≤ 57) : c < 0x80 := by
  have hle : c.toNat ≤ 57 := UInt8.le_iff_toNat_le.mp hc.2
  exact UInt8.lt_iff_toNat_lt.mpr (show c.toNat < 128 by omega)

/-- The text of such a line. -/
theorem lineText_fail (c : UInt8) (z : Bytes) (hc : 48 ≤ c ∧ c ≤ 57) :
    ∃ v, v <+: Text.decode z ∧ lineText (ascii " fail rc=" ++ c :: z) =
      "fail rc=".toList ++ Char.ofNat c.toNat :: v := by
  have hascii : c < 0x80 := ascii_of_digit hc
  have hchar : Text.isSpace (Char.ofNat c.toNat) = false := by
    have hall : ∀ n < 58, 48 ≤ n → Text.isSpace (Char.ofNat n) = false := by decide
    exact hall c.toNat (Nat.lt_succ_of_le (UInt8.le_iff_toNat_le.mp hc.2))
      (UInt8.le_iff_toNat_le.mp hc.1)
  refine ⟨((Text.decode z).reverse.dropWhile Text.isSpace).reverse, ?_, ?_⟩
  · rw [← List.reverse_suffix, List.reverse_reverse]
    exact List.dropWhile_suffix _
  · have hdecode : Text.decode (ascii " fail rc=" ++ c :: z) =
        [' '] ++ (("fail rc=".toList ++ [Char.ofNat c.toNat]) ++ Text.decode z) := by
      rw [Text.decode_append (ascii_small rfl), Text.decode_cons hascii]
      rfl
    rw [lineText, hdecode, Text.strip_append (by simp [Text.isSpace]) ?_ ?_ (by simp)]
    · simp
    · rintro d ⟨⟩
      decide
    · intro d hd
      rw [List.getLast?_append, List.getLast?_singleton] at hd
      cases hd
      exact hchar

/-- Digits in front of a blank, or cut off, are few. -/
theorem length_takeWhile_digits {rc : UInt8} {y z : Bytes} (hz : z <+: digits rc ++ 32 :: y)
    {w : List Char} (hw : w <+: Text.decode z) :
    (w.takeWhile fun d => (U.digit d).isSome).length ≤ 3 := by
  obtain ⟨hdigits, hlen, -⟩ := digits_spec rc
  have hascii : ∀ b ∈ digits rc, b < 0x80 := fun b hb => ascii_of_digit (hdigits b hb)
  rcases Search.prefix_append_cases hz with hz | ⟨s, hs, hsy, rfl⟩
  · -- Only digits are there, and not more than the status has.
    have hdecode : (Text.decode z).length = z.length := by
      have h := Text.decode_append (fun b hb => hascii b (hz.subset hb)) []
      rw [List.append_nil] at h
      rw [h]
      simp [Text.decode, Text.decodeFrom]
    have h₁ := (List.takeWhile_prefix (p := fun d => (U.digit d).isSome) (l := w)).length_le
    have h₂ := hw.length_le
    have h₃ := hz.length_le
    omega
  · -- A blank stops the digits.
    obtain ⟨c, s, rfl⟩ := List.exists_cons_of_ne_nil hs
    obtain rfl : c = 32 := (List.cons_prefix_cons.mp hsy).1
    rw [Text.decode_append hascii, Text.decode_cons (by decide)] at hw
    have hblank : (U.digit (Char.ofNat (32 : UInt8).toNat)).isSome = false := by
      rw [U.digit_ascii _ (by decide)]
      rfl
    have hle : (w.takeWhile fun d => (U.digit d).isSome).length ≤
        ((digits rc).map fun b => Char.ofNat b.toNat).length := by
      by_contra hlt
      have hpre : (digits rc).map (fun b => Char.ofNat b.toNat) ++ [Char.ofNat (32 : UInt8).toNat] <+:
          w.takeWhile fun d => (U.digit d).isSome := by
        have hfront : (digits rc).map (fun b => Char.ofNat b.toNat) ++ [Char.ofNat (32 : UInt8).toNat] <+:
            (digits rc).map (fun b => Char.ofNat b.toNat) ++
              Char.ofNat (32 : UInt8).toNat :: Text.decode s := ⟨Text.decode s, by simp⟩
        refine List.prefix_of_prefix_length_le hfront ((List.takeWhile_prefix _).trans hw) ?_
        rw [List.length_append, List.length_singleton]
        omega
      have hmem : Char.ofNat (32 : UInt8).toNat ∈ w.takeWhile fun d => (U.digit d).isSome :=
        hpre.subset (by simp)
      have hpos := List.mem_takeWhile_imp hmem
      rw [hblank] at hpos
      cases hpos
    rw [List.length_map] at hle
    omega

/-- The exit status is what `rc=` finds, and it is short. -/
theorem searchRc_fail {rc : UInt8} {y z : Bytes} (hz : z <+: digits rc ++ 32 :: y) {ds : List Char}
    (h : searchRc U none (lineText (ascii " fail rc=" ++ z)) = some ds) : ds.length ≤ 3 := by
  obtain ⟨hdigits, -, hne⟩ := digits_spec rc
  cases z with
  | nil =>
    have hnone : searchRc U none (lineText (ascii " fail rc=" ++ [])) = none := by
      have htext : lineText (ascii " fail rc=" ++ []) = "fail rc=".toList := by decide
      rw [htext]
      simp [searchRc]
    rw [hnone] at h
    cases h
  | cons c z =>
    have hc : 48 ≤ c ∧ c ≤ 57 := by
      obtain ⟨d, ds, hds⟩ := List.exists_cons_of_ne_nil hne
      rw [hds] at hz
      rw [(List.cons_prefix_cons.mp hz).1]
      exact hdigits d (by simp [hds])
    obtain ⟨v, hv, htext⟩ := lineText_fail c z hc
    have hw : Char.ofNat c.toNat :: v <+: Text.decode (c :: z) := by
      rw [Text.decode_cons (ascii_of_digit hc)]
      exact List.cons_prefix_cons.mpr ⟨rfl, hv⟩
    have hdigit : (U.digit (Char.ofNat c.toNat)).isSome = true := by
      have hall : ∀ n < 58, 48 ≤ n → (Char.ofNat n).toNat < 128 ∧ (Char.ofNat n).isDigit = true := by
        decide
      obtain ⟨hsmall, hisDigit⟩ := hall c.toNat (Nat.lt_succ_of_le (UInt8.le_iff_toNat_le.mp hc.2))
        (UInt8.le_iff_toNat_le.mp hc.1)
      rw [U.digit_ascii _ hsmall, if_pos hisDigit]
      rfl
    have hblank : U.isWord ' ' = false := by
      rw [U.isWord_ascii _ (by decide)]
      decide
    have hfound : searchRc U none (lineText (ascii " fail rc=" ++ c :: z)) =
        some ((Char.ofNat c.toNat :: v).takeWhile fun d => (U.digit d).isSome) := by
      rw [htext]
      simp [searchRc, boundary, hblank, hdigit]
    rw [hfound] at h
    cases h
    exact length_takeWhile_digits U hz hw

theorem length_searchRc {prev : Option Char} {cs ds : List Char} (h : searchRc U prev cs = some ds) :
    ds.length ≤ cs.length := by
  induction cs generalizing prev with
  | nil => cases h
  | cons c cs ih =>
    rw [searchRc] at h
    split_ifs at h
    · cases h
      have h₁ := (List.takeWhile_prefix (p := fun d => (U.digit d).isSome) (l := (c :: cs).drop 3)).length_le
      have h₂ : ((c :: cs).drop 3).length ≤ (c :: cs).length := by
        rw [List.length_drop]
        omega
      exact h₁.trans h₂
    · exact (ih h).trans (Nat.le_succ _)

/-- The exit status on the line is one `int` takes. -/
def ShortRc (line : Bytes) : Prop :=
  ∀ ds, searchRc U none (lineText line) = some ds → ds.length ≤ 4300

theorem failure_of_shortRc {line : Bytes} (h : ShortRc U line) (log : Bytes) :
    ∃ rc cmd, failure U line log = .answer (some ⟨false, rc, cmd, log⟩) := by
  unfold failure
  cases hrc : searchRc U none (lineText line) with
  | none => exact ⟨_, _, rfl⟩
  | some ds =>
    rw [Option.map_some, pyInt, if_neg (by have := h ds hrc; omega)]
    exact ⟨_, _, rfl⟩

theorem failure_of_not_shortRc {line : Bytes} (h : ¬ShortRc U line) (log : Bytes) :
    failure U line log = .raise := by
  unfold ShortRc at h
  push Not at h
  obtain ⟨ds, hds, hlong⟩ := h
  rw [failure, hds, Option.map_some, pyInt, if_pos hlong]

/-! ### Pieces of a command -/

/-- What stands between the marker and a piece of the command. -/
def opening (rc : UInt8) (first : Bool) : Bytes := if first then failHead rc else []

theorem not_mem_opening (rc : UInt8) (first : Bool) {b : UInt8} (hb : b < 48 ∨ 57 < b)
    (h₁ : b ∉ ascii " fail rc=") (h₂ : b ∉ ascii " cmd=\"") : b ∉ opening rc first := by
  unfold opening
  split_ifs
  · unfold failHead
    simp only [List.mem_append, not_or]
    refine ⟨⟨h₁, fun hmem => ?_⟩, h₂⟩
    obtain ⟨hlo, hhi⟩ := (digits_spec rc).1 b hmem
    rcases hb with hb | hb
    · exact absurd hlo (UInt8.not_le.mpr hb)
    · exact absurd hhi (UInt8.not_le.mpr hb)
  · exact List.not_mem_nil

theorem newline_opening (rc : UInt8) (first : Bool) : (10 : UInt8) ∉ opening rc first :=
  not_mem_opening rc first (.inl (by decide)) (by decide) (by decide)

theorem firstLine_opening (rc : UInt8) (first : Bool) (c : Bytes) :
    firstLine (opening rc first ++ c) = opening rc first ++ firstLine c := by
  rw [firstLine, List.takeWhile_append_of_pos]
  · rfl
  · intro b hb
    simpa using fun h : b = 10 => newline_opening rc first (h ▸ hb)

theorem fail_failHead (rc : UInt8) (z : Bytes) : ascii " fail " <+: failHead rc ++ z := by
  unfold failHead
  rw [List.append_assoc, List.append_assoc, show ascii " fail rc=" = ascii " fail " ++ ascii "rc=" by decide,
    List.append_assoc]
  exact List.prefix_append _ _

/-- The first word of the first line of a piece. -/
theorem tag_opening (rc : UInt8) {first : Bool} {c : Bytes}
    (h : first = false → tag (firstLine c) = "fail".toList) :
    tag (firstLine (opening rc first ++ c)) = "fail".toList := by
  rw [firstLine_opening]
  cases first with
  | true => exact tag_fail (fail_failHead rc _)
  | false => exact h rfl

/-- What stands before a piece adds nothing to the log. -/
theorem extractLog_opening (rc : UInt8) (first : Bool) (c : Bytes) :
    extractLog (marker ++ (opening rc first ++ c)) = extractLog c := by
  cases first with
  | true =>
    have hsplit : marker ++ (opening rc true ++ c) =
        (marker ++ (ascii " fail rc=" ++ digits rc ++ ascii " cmd=")) ++ 34 :: c := by
      have hquote : ascii " cmd=\"" = ascii " cmd=" ++ [34] := by decide
      simp [opening, failHead, hquote]
    rw [hsplit]
    refine extractLog_sep (Search.not_infix_of_mem (b := 79) (by decide) ?_) (by decide) c
    have hnot := not_mem_opening rc true (b := 79) (.inr (by decide)) (by decide) (by decide)
    have hmarker : (79 : UInt8) ∉ marker := by decide
    have hquote : ascii " cmd=\"" = ascii " cmd=" ++ [34] := by decide
    simp only [opening, if_true, failHead, hquote, List.mem_append, not_or] at hnot
    simp only [List.mem_append, not_or]
    exact ⟨hmarker, hnot.1, hnot.2.1⟩
  | false =>
    have hsplit : marker ++ (opening rc false ++ c) = ascii "TESTRANGE-RESULT" ++ 58 :: c := by
      have hcolon : marker = ascii "TESTRANGE-RESULT" ++ [58] := by decide
      simp [opening, hcolon]
    rw [hsplit]
    exact extractLog_sep (Search.not_infix_of_mem (b := 79) (by decide) (by decide)) (by decide) c

/-- A marker that begins after a piece completes no log. -/
theorem extractLog_marker {c : Bytes} (h : (extractLog c).2 = false) : (extractLog (c ++ marker)).2 = false := by
  have hapart : Search.Apart logBegin marker := by decide
  have hapart' : Search.Apart logEnd marker := by decide
  have hbegin : ¬logBegin <:+: marker := Search.not_infix_of_mem (b := 79) (by decide) (by decide)
  have hend : ¬logEnd <:+: marker := Search.not_infix_of_mem (b := 79) (by decide) (by decide)
  rw [extractLog_eq] at h ⊢
  cases hstart : find logBegin c with
  | none =>
    have hnone : find logBegin (c ++ marker) = none :=
      Search.find_eq_none.mpr (hapart.not_infix hbegin (Search.find_eq_none.mp hstart) List.prefix_rfl)
    rw [hnone]
  | some start =>
    obtain ⟨-, hlen, -⟩ := Search.find_eq_some hstart
    rw [hstart] at h
    rw [Search.find_mono hstart (List.prefix_append c marker)]
    dsimp only at h ⊢
    rw [List.drop_append_of_le_length hlen]
    generalize c.drop start = t at h
    unfold block at h ⊢
    have hnewline : (10 : UInt8) ∉ marker := by decide
    rw [find_newline] at h ⊢
    by_cases hmem : (10 : UInt8) ∈ t
    · have hline : firstLine (t ++ marker) = firstLine t :=
        (firstLine_mono (List.prefix_append t marker) hmem).symm
      have hle : (firstLine t).length ≤ t.length := (List.takeWhile_prefix _).length_le
      rw [if_pos hmem] at h
      rw [if_pos (List.mem_append_left _ hmem), hline]
      dsimp only at h ⊢
      rw [List.drop_append_of_le_length hle]
      cases hm : find logEnd (t.drop (firstLine t).length) with
      | none =>
        have hnone : find logEnd (t.drop (firstLine t).length ++ marker) = none :=
          Search.find_eq_none.mpr (hapart'.not_infix hend (Search.find_eq_none.mp hm) List.prefix_rfl)
        rw [hnone]
      | some m =>
        rw [hm] at h
        cases h
    · have hnone : (10 : UInt8) ∉ t ++ marker := by
        rw [List.mem_append, not_or]
        exact ⟨hmem, hnewline⟩
      rw [if_neg hnone]

/-! ### Harmless commands -/

/-- A piece of the command that another marker follows: it frames no log, and its line, if it
ends one, is a `fail` line. -/
def SkipOk (first : Bool) (c : Bytes) : Prop :=
  (extractLog c).2 = false ∧ (first = false → 10 ∈ c → tag (firstLine c) = "fail".toList)

/-- The last piece of the command: no log begins in it, and its line is a `fail` line with an
exit status `int` takes, if it has one. -/
def LastOk (first : Bool) (c : Bytes) : Prop :=
  ¬logBegin <:+: c ∧ (first = false →
    tag (firstLine (c ++ [34])) = "fail".toList ∧ ShortRc U (firstLine (c ++ [34])))

/-- The pieces of a command between its markers do no harm. -/
def Harmless : Bool → Bytes → List Bytes → Prop
  | first, c, [] => LastOk U first c
  | first, c, d :: ds => SkipOk first c ∧ Harmless false d ds

/-- The command does no harm. -/
def Benign (cmd : Bytes) : Prop := Harmless U true (Search.split marker cmd).1 (Search.split marker cmd).2

section Judge

variable {rc : UInt8} {first : Bool} {c log : Bytes}

/-- A harmless piece that another marker follows is passed over. -/
theorem judge_skip (h : SkipOk first c) : judge U false false (marker ++ (opening rc first ++ c)) = .skip := by
  rw [judge_eq]
  by_cases hmem : (10 : UInt8) ∈ opening rc first ++ c
  · have hc : (10 : UInt8) ∈ c := by
      rcases List.mem_append.mp hmem with hmem | hmem
      · exact absurd hmem (newline_opening rc first)
      · exact hmem
    have htag := tag_opening rc (c := c) fun hfirst => h.2 hfirst hc
    rw [if_pos hmem, judgeLine, htag, extractLog_opening, h.1, if_neg (by decide), if_pos rfl]
    rfl
  · rw [if_neg hmem]
    rfl

/-- A harmless piece of which only a part has arrived is waited for. -/
theorem judge_partial (h : SkipOk first c) {r : Bytes} (hr : r <+: (opening rc first ++ c) ++ marker) :
    judge U false true (marker ++ r) = .skip ∨ judge U false true (marker ++ r) = .answer none := by
  rw [judge_eq]
  by_cases hmem : (10 : UInt8) ∈ r
  · right
    have hnewline : (10 : UInt8) ∉ marker := by decide
    have hc : (10 : UInt8) ∈ c := by
      rcases List.mem_append.mp (hr.subset hmem) with hin | hin
      · rcases List.mem_append.mp hin with hin | hin
        · exact absurd hin (newline_opening rc first)
        · exact hin
      · exact absurd hin hnewline
    have hline : firstLine r = firstLine (opening rc first ++ c) := by
      rw [firstLine_mono hr hmem]
      exact (firstLine_mono (List.prefix_append _ _) (List.mem_append_right _ hc)).symm
    have htag := tag_opening rc (c := c) fun hfirst => h.2 hfirst hc
    -- The log is not complete with the whole next marker, so it is not complete now.
    have hlog : (extractLog (marker ++ r)).2 = false := by
      by_contra hcomplete
      have hsome : extractLog (marker ++ r) = ((extractLog (marker ++ r)).1, true) :=
        Prod.ext rfl (by simpa using hcomplete)
      have hlonger := extractLog_mono hsome ((List.prefix_append_right_inj marker).mpr hr)
      rw [List.append_assoc, extractLog_opening] at hlonger
      have hnot := extractLog_marker h.1
      rw [hlonger] at hnot
      cases hnot
    rw [if_pos hmem, judgeLine, hline, htag, hlog, if_neg (by decide), if_pos rfl]
    rfl
  · left
    rw [if_neg hmem]
    rfl

theorem failTail_eq (log : Bytes) : failTail log =
    34 :: 10 :: (logBegin ++ 10 :: (Base64.wrap log ++ (logEnd ++ [10]))) := by
  have h₁ : ascii "\"\n" = [34, 10] := by decide
  have h₂ : ascii "\n" = [10] := by decide
  rw [failTail, h₁, h₂]
  rfl

/-- The line of the last piece ends with its quote. -/
theorem firstLine_failTail (x log : Bytes) : firstLine (x ++ failTail log) = firstLine (x ++ [34]) := by
  rw [failTail_eq]
  by_cases hmem : (10 : UInt8) ∈ x
  · rw [← firstLine_mono (List.prefix_append _ _) hmem, ← firstLine_mono (List.prefix_append _ _) hmem]
  · have hx : ∀ b ∈ x, decide (b ≠ 10) = true := by
      intro b hb
      simpa using fun h : b = 10 => hmem (h ▸ hb)
    rw [firstLine, firstLine, List.takeWhile_append_of_pos hx, List.takeWhile_append_of_pos hx]
    rfl

theorem not_mem_wrap (log : Bytes) : (45 : UInt8) ∉ Base64.wrap log := by
  intro hmem
  rcases Base64.mem_wrap hmem with h | h | h
  · revert h
    decide
  · revert h
    decide
  · revert h
    decide

/-- The log of the record is found where no other one begins. -/
theorem extractLog_failTail (hc : ¬logBegin <:+: c) (log : Bytes) :
    extractLog (c ++ failTail log) = (log, true) := by
  have hnil : ¬logBegin <:+: ([] : Bytes) := by decide
  rw [failTail_eq, extractLog_sep hc (by decide),
    show ∀ y : Bytes, (10 : UInt8) :: y = [] ++ 10 :: y from fun _ => rfl, extractLog_sep hnil (by decide),
    extractLog_eq, Search.find_at (List.prefix_append _ _)]
  dsimp only
  rw [List.drop_zero, block, find_newline, if_pos (by simp)]
  have hline : firstLine (logBegin ++ 10 :: (Base64.wrap log ++ (logEnd ++ [10]))) = logBegin := by
    rw [firstLine, List.takeWhile_append_of_pos (List.all_eq_true.mp rfl), List.takeWhile_cons_of_neg (by decide),
      List.append_nil]
  -- The end is found right after the lines.
  have hend : find logEnd (10 :: (Base64.wrap log ++ (logEnd ++ [10]))) =
      some ((Base64.wrap log).length + 1) := by
    have hstart : find logEnd ([] ++ (10 : UInt8) :: (Base64.wrap log ++ (logEnd ++ [10]))) = _ :=
      Search.find_sep (by decide) (by decide)
    rw [List.nil_append] at hstart
    rw [hstart]
    by_cases hwrap : Base64.wrap log = []
    · rw [hwrap, List.nil_append, Search.find_at (List.prefix_append _ _)]
      rfl
    · obtain ⟨lines, hlines⟩ := Base64.wrapFrom_ends _ _ hwrap
      have hlines' : Base64.wrap log = lines ++ [10] := hlines
      have hnot : ¬logEnd <:+: lines := by
        refine Search.not_infix_of_mem (b := 45) (by decide) fun hmem => not_mem_wrap log ?_
        rw [hlines']
        exact List.mem_append_left _ hmem
      rw [hlines', List.append_assoc, List.singleton_append, Search.find_sep hnot (by decide),
        Search.find_at (List.prefix_append _ _)]
      simp
  rw [hline]
  dsimp only
  rw [List.drop_left, hend]
  dsimp only
  rw [← List.drop_drop, List.drop_left, List.drop_one, List.tail_cons, Nat.add_sub_cancel, List.take_left,
    decodeTolerant_wrap]

variable (rc) in
/-- The line of the last piece has an exit status `int` takes. -/
theorem shortRc_opening (h : first = false → ShortRc U (firstLine (c ++ [34]))) :
    ShortRc U (firstLine (opening rc first ++ (c ++ [34]))) := by
  cases first with
  | false => exact h rfl
  | true =>
    intro ds hds
    rw [firstLine_opening] at hds
    have hsplit : opening rc true ++ firstLine (c ++ [34]) = ascii " fail rc=" ++
        (digits rc ++ 32 :: (ascii "cmd=\"" ++ firstLine (c ++ [34]))) := by
      have hblank : ascii " cmd=\"" = 32 :: ascii "cmd=\"" := by decide
      simp [opening, failHead, hblank]
    rw [hsplit] at hds
    exact (searchRc_fail U List.prefix_rfl hds).trans (by decide)

variable (rc) in
/-- What is reported of the last piece once the log is complete. -/
theorem judge_last (h : LastOk U first c) (log : Bytes) : ∃ rc' cmd,
    judge U false true (marker ++ (opening rc first ++ (c ++ failTail log))) =
      .answer (some ⟨false, rc', cmd, log⟩) := by
  have hmem : (10 : UInt8) ∈ opening rc first ++ (c ++ failTail log) := by
    rw [failTail_eq]
    simp
  have hline : firstLine (opening rc first ++ (c ++ failTail log)) =
      firstLine (opening rc first ++ (c ++ [34])) := by
    rw [← List.append_assoc, firstLine_failTail, List.append_assoc]
  have htag := tag_opening rc (c := c ++ [34]) fun hfirst => (h.2 hfirst).1
  have hshort := shortRc_opening U rc (c := c) fun hfirst => (h.2 hfirst).2
  rw [judge_eq, if_pos hmem, judgeLine, hline, htag, extractLog_opening, extractLog_failTail h.1,
    if_neg (by decide), if_pos rfl, if_pos rfl]
  exact failure_of_shortRc U hshort log

/-- While the last piece arrives it is waited for, until the log is complete. -/
theorem judge_last_partial (h : LastOk U first c) {r : Bytes}
    (hr : r <+: opening rc first ++ (c ++ failTail log)) :
    judge U false true (marker ++ r) = .skip ∨ judge U false true (marker ++ r) = .answer none ∨
      ∃ rc' cmd, judge U false true (marker ++ r) = .answer (some ⟨false, rc', cmd, log⟩) := by
  rw [judge_eq]
  by_cases hmem : (10 : UInt8) ∈ r
  · right
    have hline : firstLine r = firstLine (opening rc first ++ (c ++ [34])) := by
      rw [firstLine_mono hr hmem, ← List.append_assoc, firstLine_failTail, List.append_assoc]
    have htag := tag_opening rc (c := c ++ [34]) fun hfirst => (h.2 hfirst).1
    have hshort := shortRc_opening U rc (c := c) fun hfirst => (h.2 hfirst).2
    rw [if_pos hmem, judgeLine, hline, htag, if_neg (by decide), if_pos rfl]
    cases hcomplete : (extractLog (marker ++ r)).2 with
    | false =>
      left
      rfl
    | true =>
      right
      have hsome : extractLog (marker ++ r) = ((extractLog (marker ++ r)).1, true) :=
        Prod.ext rfl hcomplete
      have hwhole := extractLog_mono hsome ((List.prefix_append_right_inj marker).mpr hr)
      rw [extractLog_opening, extractLog_failTail h.1] at hwhole
      have hlog : (extractLog (marker ++ r)).1 = log := (congrArg Prod.fst hwhole).symm
      rw [hlog]
      exact failure_of_shortRc U hshort log
  · left
    rw [if_neg hmem]
    rfl

end Judge

/-! ### The last pass -/

/-- A beginning of the fail line is never `ok`, and has an exit status `int` takes. -/
theorem line_of_prefix {rc : UInt8} {line y : Bytes} (h : line <+: failHead rc ++ y) :
    tag line ≠ "ok".toList ∧ ShortRc U line := by
  have hsplit : failHead rc ++ y = ascii " fail rc=" ++ (digits rc ++ 32 :: (ascii "cmd=\"" ++ y)) := by
    have hblank : ascii " cmd=\"" = 32 :: ascii "cmd=\"" := by decide
    simp [failHead, hblank]
  rw [hsplit] at h
  rcases Search.prefix_append_cases h with hshort | ⟨z, -, hz, rfl⟩
  · -- The line is one of ten.
    have hall : ∀ n : Fin 10, tag ((ascii " fail rc=").take n) ≠ "ok".toList ∧
        (lineText ((ascii " fail rc=").take n)).length ≤ 9 := by decide
    have hlen : line.length < 10 := by
      have := hshort.length_le
      have hnine : (ascii " fail rc=").length = 9 := by decide
      omega
    have hline : line = (ascii " fail rc=").take line.length := List.prefix_iff_eq_take.mp hshort
    obtain ⟨htag, htext⟩ := hall ⟨line.length, hlen⟩
    rw [← hline] at htag htext
    refine ⟨htag, fun ds hds => ?_⟩
    have := length_searchRc U hds
    omega
  · refine ⟨?_, fun ds hds => (searchRc_fail U hz hds).trans (by decide)⟩
    have hfail : ascii " fail " <+: ascii " fail rc=" ++ z := by
      rw [show ascii " fail rc=" = ascii " fail " ++ ascii "rc=" by decide, List.append_assoc]
      exact List.prefix_append _ _
    rw [tag_fail hfail]
    decide

/-- The last pass takes what follows the first marker for a failure. -/
theorem judge_final {rc : UInt8} {isLast : Bool} {x y : Bytes} (hx : x <+: failHead rc ++ y)
    (hlast : isLast = false → failHead rc <+: x) :
    ∃ r, judge U true isLast (marker ++ x) = .answer (some r) ∧ r.ok = false := by
  -- The line is the beginning of the fail line, and all of it unless the piece is the last.
  obtain ⟨line, hline, hlineLast, hjudge⟩ : ∃ line, line <+: failHead rc ++ y ∧
      (isLast = false → failHead rc <+: line) ∧
      judge U true isLast (marker ++ x) = judgeLine U true isLast (marker ++ x) line := by
    rw [judge_eq]
    by_cases hmem : (10 : UInt8) ∈ x
    · refine ⟨firstLine x, (List.takeWhile_prefix _).trans hx, fun hl => ?_, if_pos hmem⟩
      obtain ⟨t, rfl⟩ := hlast hl
      have h := firstLine_opening rc true t
      rw [opening, if_pos rfl] at h
      rw [h]
      exact List.prefix_append _ _
    · exact ⟨x, hx, hlast, by rw [if_neg hmem, if_pos rfl]⟩
  obtain ⟨htag, hshort⟩ := line_of_prefix U hline
  rw [hjudge, judgeLine, if_neg htag]
  by_cases hfail : tag line = "fail".toList
  · obtain ⟨rc', cmd, hfailure⟩ := failure_of_shortRc U hshort (extractLog (marker ++ x)).1
    rw [if_pos hfail, if_pos (by simp), hfailure]
    exact ⟨_, rfl, rfl⟩
  · rw [if_neg hfail]
    cases isLast with
    | true => exact ⟨_, rfl, rfl⟩
    | false =>
      obtain ⟨z, rfl⟩ := hlineLast rfl
      exact absurd (tag_fail (fail_failHead rc z)) hfail

/-! ### Pieces of a record -/

/-- The last piece gets what follows the command. -/
def withTail (tail : Bytes) : Bytes → List Bytes → List Bytes
  | c, [] => [c ++ tail]
  | c, d :: ds => c :: withTail tail d ds

theorem glue_withTail (tail c : Bytes) (cs : List Bytes) :
    glue marker (withTail tail c cs) = marker ++ (c ++ (glue marker cs ++ tail)) := by
  induction cs generalizing c with
  | nil => simp [withTail]
  | cons d ds ih => simp [withTail, ih]

/-- The pieces of the record of a failed build. -/
def recordPieces (rc : UInt8) (log : Bytes) (first : Bool) (c : Bytes) (cs : List Bytes) : List Bytes :=
  withTail (failTail log) (opening rc first ++ c) cs

theorem failRecord_eq (rc : UInt8) (log c : Bytes) (cs : List Bytes) :
    failRecord rc (c ++ glue marker cs) log = glue marker (recordPieces rc log true c cs) := by
  rw [recordPieces, glue_withTail, failRecord]
  simp [opening]

/-- No marker is in the head of the record. -/
theorem clean_opening (rc : UInt8) (first : Bool) {c : Bytes} (hc : ¬marker <:+: c) :
    ¬marker <:+: opening rc first ++ c := by
  cases first with
  | false => exact hc
  | true =>
    have hquote : ascii " cmd=\"" = ascii " cmd=" ++ [34] := by decide
    have hsplit : opening rc true ++ c = (ascii " fail rc=" ++ digits rc ++ ascii " cmd=") ++ 34 :: c := by
      simp [opening, failHead, hquote]
    rw [hsplit]
    refine Search.infix_sep (by decide) (Search.not_infix_of_mem (b := 84) (by decide) ?_) hc
    have hnot := not_mem_opening rc true (b := 84) (.inr (by decide)) (by decide) (by decide)
    simp only [opening, if_true, failHead, hquote, List.mem_append, not_or] at hnot
    simp only [List.mem_append, not_or]
    exact ⟨hnot.1, hnot.2.1⟩

/-- No marker is in what follows the command. -/
theorem clean_failTail {c : Bytes} (hc : ¬marker <:+: c) (log : Bytes) : ¬marker <:+: c ++ failTail log := by
  rw [failTail_eq]
  have hnil : ¬marker <:+: ([] : Bytes) := by decide
  have hend : ¬marker <:+: logEnd ++ [10] := by decide
  have hlog : ¬marker <:+: Base64.wrap log ++ (logEnd ++ [10]) := by
    by_cases hwrap : Base64.wrap log = []
    · rw [hwrap]
      exact hend
    · obtain ⟨lines, hlines⟩ := Base64.wrapFrom_ends _ _ hwrap
      have hlines' : Base64.wrap log = lines ++ [10] := hlines
      rw [hlines', List.append_assoc, List.singleton_append]
      refine Search.infix_sep (by decide) (Search.not_infix_of_mem (b := 45) (by decide) fun hmem => ?_) hend
      refine not_mem_wrap log ?_
      rw [hlines']
      exact List.mem_append_left _ hmem
  refine Search.infix_sep (by decide) hc ?_
  have hbegin : ¬marker <:+: logBegin := by decide
  exact Search.infix_sep (by decide) hnil (Search.infix_sep (by decide) hbegin hlog)

theorem clean_recordPieces (rc : UInt8) (log : Bytes) (first : Bool) {c : Bytes} {cs : List Bytes}
    (hc : ¬marker <:+: c) (hcs : Clean marker cs) : Clean marker (recordPieces rc log first c cs) := by
  induction cs generalizing first c with
  | nil =>
    intro r hr
    rw [List.mem_singleton.mp hr, List.append_assoc]
    exact clean_opening rc first (clean_failTail hc log)
  | cons d ds ih =>
    intro r hr
    rcases List.mem_cons.mp hr with rfl | hr
    · exact clean_opening rc first hc
    · have hrest := ih false (hcs d List.mem_cons_self) fun r hr => hcs r (List.mem_cons_of_mem _ hr)
      exact hrest r hr

/-! ### The loop over the pieces -/

/-- A result that is not wrong: none yet, or a failure with the log. -/
def Fine (log : Bytes) : Except Unit (Option Result) → Prop
  | .ok none => True
  | .ok (some r) => r.ok = false ∧ r.log = log
  | .error _ => False

/-- How a beginning of the record ends: within a piece, or within the marker after it. -/
def EndsIn (r : Bytes) (after : List Bytes) (r' : Bytes) : Prop :=
  r' <+: r ∨ after ≠ [] ∧ ∃ s, s <+: marker ∧ r' = r ++ s

theorem EndsIn.le {r r' : Bytes} {after : List Bytes} (h : EndsIn r after r') : r' <+: r ++ marker := by
  rcases h with h | ⟨-, s, hs, rfl⟩
  · exact h.trans (List.prefix_append _ _)
  · exact (List.prefix_append_right_inj r).mpr hs

theorem judgeAll_cons_skip {final : Bool} {r : Bytes} {rs : List Bytes}
    (h : judge U final rs.isEmpty (marker ++ r) = .skip) : judgeAll U final (r :: rs) = judgeAll U final rs := by
  rw [judgeAll, h]

/-- What has arrived of a harmless record is never read wrongly. -/
theorem fine_judgeAll {rc : UInt8} {log : Bytes} {first : Bool} {c : Bytes} {cs : List Bytes}
    (h : Harmless U first c cs) {before after : List Bytes} {r r' : Bytes}
    (hpieces : recordPieces rc log first c cs = before ++ r :: after) (hr : EndsIn r after r') :
    Fine log (judgeAll U false (before ++ [r'])) := by
  induction cs generalizing first c before with
  | nil =>
    obtain ⟨rfl, hcons⟩ : before = [] ∧ [(opening rc first ++ c) ++ failTail log] = r :: after := by
      rcases before with _ | ⟨b, before⟩
      · exact ⟨rfl, hpieces⟩
      · exact absurd (congrArg List.length hpieces) (by simp [recordPieces, withTail])
    obtain ⟨rfl, rfl⟩ := List.cons.inj hcons
    have hin : r' <+: opening rc first ++ (c ++ failTail log) := by
      rcases hr with hr | ⟨hne, -⟩
      · rwa [List.append_assoc] at hr
      · exact absurd rfl hne
    rw [List.nil_append, judgeAll]
    rcases judge_last_partial U h hin with hj | hj | ⟨rc', cmd, hj⟩
    · rw [List.isEmpty_nil, hj]
      trivial
    · rw [List.isEmpty_nil, hj]
      trivial
    · rw [List.isEmpty_nil, hj]
      exact ⟨rfl, rfl⟩
  | cons d ds ih =>
    obtain ⟨hskip, hrest⟩ := h
    rcases before with _ | ⟨b, before⟩
    · obtain ⟨rfl, -⟩ := List.cons.inj hpieces
      rw [List.nil_append, judgeAll]
      rcases judge_partial U hskip hr.le with hj | hj
      · rw [List.isEmpty_nil, hj]
        trivial
      · rw [List.isEmpty_nil, hj]
        trivial
    · obtain ⟨rfl, hpieces'⟩ := List.cons.inj hpieces
      have hempty : (before ++ [r']).isEmpty = false := by simp
      rw [List.cons_append, judgeAll_cons_skip U (by rw [hempty]; exact judge_skip U hskip)]
      exact ih hrest hpieces'

/-- A harmless record is read as the failure it is, with its log. -/
theorem judgeAll_whole (rc : UInt8) (log : Bytes) {first : Bool} {c : Bytes} {cs : List Bytes}
    (h : Harmless U first c cs) :
    ∃ rc' cmd, judgeAll U false (recordPieces rc log first c cs) = .ok (some ⟨false, rc', cmd, log⟩) := by
  induction cs generalizing first c with
  | nil =>
    obtain ⟨rc', cmd, hj⟩ := judge_last U rc h log
    refine ⟨rc', cmd, ?_⟩
    rw [recordPieces, withTail, judgeAll, List.isEmpty_nil, List.append_assoc, hj]
  | cons d ds ih =>
    obtain ⟨hskip, hrest⟩ := h
    obtain ⟨rc', cmd, hj⟩ := ih hrest
    refine ⟨rc', cmd, ?_⟩
    have hempty : (withTail (failTail log) d ds).isEmpty = false := by cases ds <;> rfl
    rw [recordPieces, withTail, judgeAll_cons_skip U (by rw [hempty]; exact judge_skip U hskip)]
    exact hj

/-- The last pass never takes a beginning of the record for a success. -/
theorem judgeAll_final {rc : UInt8} {log : Bytes} {c : Bytes} {cs : List Bytes} {before after : List Bytes}
    {r r' : Bytes} (hpieces : recordPieces rc log true c cs = before ++ r :: after) (hr : EndsIn r after r') :
    ∃ a, judgeAll U true (before ++ [r']) = .ok (some a) ∧ a.ok = false := by
  obtain ⟨y, ys, hy⟩ : ∃ y ys, recordPieces rc log true c cs = (failHead rc ++ y) :: ys := by
    cases cs with
    | nil => exact ⟨c ++ failTail log, [], by simp [recordPieces, withTail, opening]⟩
    | cons d ds => exact ⟨c, _, rfl⟩
  rw [hy] at hpieces
  rcases before with _ | ⟨b, before⟩
  · obtain ⟨rfl, -⟩ := List.cons.inj hpieces
    have hin : r' <+: failHead rc ++ (y ++ marker) := by
      rw [← List.append_assoc]
      exact hr.le
    obtain ⟨a, hj, ha⟩ : ∃ a, judge U true true (marker ++ r') = .answer (some a) ∧ a.ok = false :=
      judge_final U hin (by rintro ⟨⟩)
    refine ⟨a, ?_, ha⟩
    rw [List.nil_append, judgeAll, List.isEmpty_nil, hj]
  · obtain ⟨rfl, -⟩ := List.cons.inj hpieces
    obtain ⟨a, hj, ha⟩ : ∃ a, judge U true false (marker ++ (failHead rc ++ y)) = .answer (some a) ∧
        a.ok = false := judge_final U List.prefix_rfl fun _ => List.prefix_append _ _
    have hempty : (before ++ [r']).isEmpty = false := by simp
    refine ⟨a, ?_, ha⟩
    rw [List.cons_append, judgeAll, hempty, hj]

/-! ### Streams -/

/-- What a stream delivers. -/
def delivered (stream : List (Bytes × Bool)) : Bytes := stream.flatMap Prod.fst

/-- The deadline does not pass while it is delivered. -/
def Punctual (stream : List (Bytes × Bool)) : Prop := ∀ x ∈ stream, x.2 = false

/-- `BuildFailedError` -/
def Outcome.IsFailed : Outcome → Prop
  | .failed _ _ _ _ => True
  | _ => False

/-- `BuildFailedError`, with that log. -/
def Outcome.FailedWith (log : Bytes) : Outcome → Prop
  | .failed _ _ l _ => l = log
  | _ => False

theorem isFailed_raiseOrReturn {r : Result} (h : r.ok = false) : (raiseOrReturn r).IsFailed := by
  rw [raiseOrReturn, h]
  trivial

/-- Waiting, where nothing that arrives is read wrongly. -/
theorem wait_isFailed {log buffer : Bytes} {stream : List (Bytes × Bool)}
    (hfine : ∀ p, p <+: buffer ++ delivered stream → Fine log (parse U p false))
    (hclosed : (closed U (buffer ++ delivered stream)).IsFailed) :
    (waitFrom U buffer stream).IsFailed ∨ waitFrom U buffer stream = .timedOut ∧ ¬Punctual stream := by
  induction stream generalizing buffer with
  | nil =>
    rw [delivered, List.flatMap_nil, List.append_nil] at hclosed
    exact .inl hclosed
  | cons x rest ih =>
    obtain ⟨chunk, late⟩ := x
    have hsplit : buffer ++ delivered ((chunk, late) :: rest) = (buffer ++ chunk) ++ delivered rest := by
      simp [delivered]
    rw [hsplit] at hfine hclosed
    have hnow : Fine log (if chunk = [] then .ok none else parse U (buffer ++ chunk) false) := by
      split_ifs
      · trivial
      · exact hfine _ (List.prefix_append _ _)
    rw [waitFrom]
    generalize (if chunk = [] then Except.ok none else parse U (buffer ++ chunk) false) = result at hnow
    match result, hnow with
    | .ok (some r), hnow => exact .inl (isFailed_raiseOrReturn hnow.1)
    | .ok none, _ =>
      cases late with
      | true => exact .inr ⟨rfl, fun h => by cases h _ List.mem_cons_self⟩
      | false =>
        rcases ih hfine hclosed with h | ⟨h, hlate⟩
        · exact .inl h
        · exact .inr ⟨h, fun hp => hlate fun x hx => hp x (List.mem_cons_of_mem _ hx)⟩

/-- Waiting for a record that is read with its log. -/
theorem wait_failedWith {log buffer : Bytes} {stream : List (Bytes × Bool)}
    (hfine : ∀ p, p <+: buffer ++ delivered stream → Fine log (parse U p false))
    (hwhole : parse U (buffer ++ delivered stream) false ≠ .ok none) (hne : delivered stream ≠ [])
    (hp : Punctual stream) : (waitFrom U buffer stream).FailedWith log := by
  induction stream generalizing buffer with
  | nil => exact absurd rfl hne
  | cons x rest ih =>
    obtain ⟨chunk, late⟩ := x
    have hlate : late = false := hp _ List.mem_cons_self
    subst hlate
    have hsplit : buffer ++ delivered ((chunk, false) :: rest) = (buffer ++ chunk) ++ delivered rest := by
      simp [delivered]
    rw [hsplit] at hfine hwhole
    have hrest : Punctual rest := fun x hx => hp x (List.mem_cons_of_mem _ hx)
    have hnow : Fine log (if chunk = [] then .ok none else parse U (buffer ++ chunk) false) := by
      split_ifs
      · trivial
      · exact hfine _ (List.prefix_append _ _)
    -- What is left is not nothing, unless the whole has just been read.
    have hmore : (if chunk = [] then Except.ok none else parse U (buffer ++ chunk) false) = .ok none →
        delivered rest ≠ [] := by
      intro hnone hdone
      by_cases hchunk : chunk = []
      · refine hne ?_
        simpa [delivered, hchunk] using hdone
      · rw [if_neg hchunk] at hnone
        rw [hdone, List.append_nil] at hwhole
        exact hwhole hnone
    rw [waitFrom]
    generalize (if chunk = [] then Except.ok none else parse U (buffer ++ chunk) false) = result at hnow hmore
    match result, hnow with
    | .ok (some r), hnow =>
      show (raiseOrReturn r).FailedWith log
      rw [raiseOrReturn, hnow.1]
      exact hnow.2
    | .ok none, _ => exact ih hfine hwhole (hmore rfl) hrest

/-! ### Reports -/

/-- A failed build of that command is never read as a success: whatever the exit status, the log
and the chatter, however the record is delivered and wherever it is cut, waiting does not
return, and unless the deadline passes raises `BuildFailedError`, with the log if it is whole. -/
def Reports (cmd : Bytes) : Prop :=
  ∀ rc log chatter, ¬marker <:+: chatter → ∀ p, p <+: failRecord rc cmd log →
    ∀ stream, delivered stream = chatter ++ p →
      wait U stream ≠ .returned ∧ (Punctual stream → (wait U stream).IsFailed ∧
        (p = failRecord rc cmd log → (wait U stream).FailedWith log))

/-- A harmless command is reported. -/
theorem reports_of_harmless {c : Bytes} {cs : List Bytes} (hc : ¬marker <:+: c) (hcs : Clean marker cs)
    (h : Harmless U true c cs) : Reports U (c ++ glue marker cs) := by
  intro rc log chatter hchatter p hp stream hstream
  rw [failRecord_eq] at hp ⊢
  have hclean := clean_recordPieces rc log true hc hcs
  -- A beginning of what is delivered, by its pieces.
  have hbeginning : ∀ q, q <+: chatter ++ p → ¬marker <:+: q ∨ ∃ before r after r',
      recordPieces rc log true c cs = before ++ r :: after ∧ q = chatter ++ glue marker (before ++ [r']) ∧
      Clean marker (before ++ [r']) ∧ EndsIn r after r' := by
    intro q hq
    have hq' := hq.trans ((List.prefix_append_right_inj chatter).mpr hp)
    rcases Search.prefix_glue unbordered_marker hchatter hclean hq' with
      ⟨hq, -⟩ | ⟨before, r, after, r', hpieces, rfl, hr', hends⟩
    · exact .inl hq
    · refine .inr ⟨before, r, after, r', hpieces, rfl, ?_, hends⟩
      intro x hx
      rcases List.mem_append.mp hx with hx | hx
      · exact hclean x (hpieces ▸ List.mem_append_left _ hx)
      · rw [List.mem_singleton.mp hx]
        exact hr'
  have hempty : ∀ q final, ¬marker <:+: q → parse U q final = .ok none := by
    intro q final hq
    have hparse := parse_glue U final hq (show Clean marker [] by simp [Clean])
    rwa [Search.glue_nil, List.append_nil] at hparse
  have hfine : ∀ q, q <+: [] ++ delivered stream → Fine log (parse U q false) := by
    intro q hq
    rw [List.nil_append, hstream] at hq
    rcases hbeginning q hq with hq | ⟨before, r, after, r', hpieces, rfl, hq, hends⟩
    · rw [hempty q false hq]
      trivial
    · rw [parse_glue U false hchatter hq]
      exact fine_judgeAll U h hpieces hends
  have hclosed : (closed U ([] ++ delivered stream)).IsFailed := by
    rw [List.nil_append, hstream, closed]
    rcases hbeginning _ List.prefix_rfl with hq | ⟨before, r, after, r', hpieces, hp', hq, hends⟩
    · rw [hempty _ true hq]
      trivial
    · obtain ⟨a, ha, hok⟩ := judgeAll_final U hpieces hends
      rw [hp', parse_glue U true hchatter hq, ha]
      exact isFailed_raiseOrReturn hok
  have hwait := wait_isFailed U hfine hclosed
  refine ⟨fun hreturned => ?_, fun hpunctual => ⟨?_, fun hwhole => ?_⟩⟩
  · rw [wait] at hreturned
    rw [hreturned] at hwait
    rcases hwait with h | ⟨h, -⟩ <;> cases h
  · rcases hwait with h | ⟨-, hlate⟩
    · exact h
    · exact absurd hpunctual hlate
  · refine wait_failedWith U hfine ?_ ?_ hpunctual
    · obtain ⟨rc', cmd, hj⟩ := judgeAll_whole U rc log h
      rw [List.nil_append, hstream, hwhole, parse_glue U false hchatter hclean, hj]
      rintro ⟨⟩
    · rw [hstream, hwhole, recordPieces, glue_withTail]
      simp [marker, ascii]

/-! ### Commands that do harm -/

/-- What follows the first line break of a framed log. -/
def frame (w : Bytes) : Bytes × Bool :=
  match find logEnd (10 :: w) with
  | none => ([], false)
  | some m => (decodeTolerant (w.take (m - 1)), true)

theorem block_eq_frame {u : Bytes} (hu : (10 : UInt8) ∉ u) (w : Bytes) : block (u ++ 10 :: w) = frame w := by
  have hall : ∀ b ∈ u, decide (b ≠ 10) = true := by
    intro b hb
    simpa using fun h : b = 10 => hu (h ▸ hb)
  have hline : firstLine (u ++ 10 :: w) = u := by
    rw [firstLine, List.takeWhile_append_of_pos hall, List.takeWhile_cons_of_neg (by decide), List.append_nil]
  rw [block, find_newline, if_pos (by simp), hline]
  dsimp only
  rw [List.drop_left, ← List.drop_drop, List.drop_left]
  rfl

/-- Another text with its own line break in front of the framed log: the log that is read is not
the log that was written, for some log. -/
theorem frame_spoiled {z : Bytes} (hz : z = [] ∨ ∃ z', z = z' ++ [10]) : ∃ log l,
    frame (z ++ (logBegin ++ 10 :: (Base64.wrap log ++ (logEnd ++ [10])))) = (l, true) ∧ l ≠ log := by
  by_cases hend : logEnd <:+: z
  · -- The log ends before the record's begins: it is the same for every log.
    obtain ⟨m, hm⟩ : ∃ m, find logEnd (10 :: z) = some m := by
      rw [← Option.isSome_iff_exists, ← Option.ne_none_iff_isSome, Ne, Search.find_eq_none, not_not]
      exact hend.trans (List.suffix_cons 10 z).isInfix
    have hle : m - 1 ≤ z.length := by
      obtain ⟨-, hlen, -⟩ := Search.find_eq_some hm
      rw [List.length_cons] at hlen
      omega
    have hsame : ∀ log, frame (z ++ (logBegin ++ 10 :: (Base64.wrap log ++ (logEnd ++ [10])))) =
        (decodeTolerant (z.take (m - 1)), true) := by
      intro log
      have hpre : 10 :: z <+: 10 :: (z ++ (logBegin ++ 10 :: (Base64.wrap log ++ (logEnd ++ [10])))) :=
        ⟨_, rfl⟩
      rw [frame, Search.find_mono hm hpre]
      dsimp only
      rw [List.take_append_of_le_length hle]
    by_cases hnil : decodeTolerant (z.take (m - 1)) = []
    · refine ⟨[0], _, hsame [0], ?_⟩
      rw [hnil]
      decide
    · exact ⟨[], _, hsame [], hnil⟩
  · -- The log is read with the letters of the marker in front of it.
    refine ⟨[], decodeTolerant (z ++ (logBegin ++ [10])), ?_, ?_⟩
    · have hlog : find logEnd (logBegin ++ 10 :: (logEnd ++ [10])) = some (logBegin.length + 1) := by
        decide
      have hfound : find logEnd (10 :: (z ++ (logBegin ++ 10 :: (logEnd ++ [10])))) =
          some (z.length + (logBegin.length + 1) + 1) := by
        have hstart : find logEnd ([] ++ (10 : UInt8) :: (z ++ (logBegin ++ 10 :: (logEnd ++ [10])))) = _ :=
          Search.find_sep (by decide) (by decide)
        rw [List.nil_append] at hstart
        rw [hstart]
        rcases hz with rfl | ⟨z', rfl⟩
        · rw [List.nil_append, hlog]
          simp
        · have hnot : ¬logEnd <:+: z' := fun h => hend (h.trans (List.prefix_append z' [10]).isInfix)
          rw [List.append_assoc, List.singleton_append, Search.find_sep hnot (by decide), hlog]
          simp only [Option.map_some, List.length_append, List.length_cons, List.length_nil]
          congr 1
          omega
      have hwrap : Base64.wrap [] = [] := rfl
      rw [hwrap, List.nil_append, frame, hfound]
      dsimp only
      rw [Nat.add_sub_cancel]
      congr 2
      have hsplit : z ++ (logBegin ++ 10 :: (logEnd ++ [10])) =
          (z ++ (logBegin ++ [10])) ++ (logEnd ++ [10]) := by simp
      have hlen : z.length + (logBegin.length + 1) = (z ++ (logBegin ++ [10])).length := by simp
      rw [hsplit, hlen, List.take_left]
    · refine decodeTolerant_ne_nil ?_
      rw [List.filter_append, List.length_append]
      have hletters : 2 ≤ ((logBegin ++ [10]).filter Base64.isAlphabet).length := by decide
      omega

/-- Where a log begins in the last piece, some log is not read. -/
theorem extractLog_spoiled {c : Bytes} (hc : logBegin <:+: c) :
    ∃ log l, extractLog (c ++ failTail log) = (l, true) ∧ l ≠ log := by
  obtain ⟨start, hstart⟩ : ∃ start, find logBegin c = some start := by
    rw [← Option.isSome_iff_exists, ← Option.ne_none_iff_isSome, Ne, Search.find_eq_none, not_not]
    exact hc
  obtain ⟨-, hlen, -⟩ := Search.find_eq_some hstart
  -- The rest of the command, from the first line break on.
  obtain ⟨u, z, hu, hz, hrest⟩ : ∃ u z, (10 : UInt8) ∉ u ∧ (z = [] ∨ ∃ z', z = z' ++ [10]) ∧
      ∀ y, c.drop start ++ 34 :: 10 :: y = u ++ 10 :: (z ++ y) := by
    by_cases hmem : (10 : UInt8) ∈ c.drop start
    · obtain ⟨u, v, huv, hu⟩ := List.eq_append_cons_of_mem hmem
      exact ⟨u, v ++ [34, 10], hu, .inr ⟨v ++ [34], by simp⟩, fun y => by rw [huv]; simp⟩
    · refine ⟨c.drop start ++ [34], [], ?_, .inl rfl, fun y => by simp⟩
      rw [List.mem_append, not_or]
      exact ⟨hmem, by decide⟩
  obtain ⟨log, l, hframe, hne⟩ := frame_spoiled hz
  refine ⟨log, l, ?_, hne⟩
  rw [extractLog_eq, Search.find_mono hstart (List.prefix_append c _)]
  dsimp only
  rw [List.drop_append_of_le_length hlen, failTail_eq, hrest, block_eq_frame hu]
  exact hframe

/-- A log is complete only after a line break. -/
theorem newline_of_extractLog {c : Bytes} (h : (extractLog c).2 = true) : (10 : UInt8) ∈ c := by
  rw [extractLog_eq] at h
  cases hstart : find logBegin c with
  | none =>
    rw [hstart] at h
    cases h
  | some start =>
    rw [hstart] at h
    dsimp only at h
    unfold block at h
    rw [find_newline] at h
    by_contra hnot
    have hmem : (10 : UInt8) ∉ c.drop start := fun hmem => hnot (List.mem_of_mem_drop hmem)
    rw [if_neg hmem] at h
    cases h

/-- A result that is fine for two logs is none. -/
theorem not_fine_both {r : Result} (h₁ : Fine [] (.ok (some r))) (h₂ : Fine [0] (.ok (some r))) : False := by
  have h := h₁.2.symm.trans h₂.2
  cases h

section Harm

variable {first : Bool} {c : Bytes} {before : List Bytes}

theorem judgeAll_append {rs : List Bytes} (hrs : rs ≠ [])
    (h : ∀ b ∈ before, judge U false false (marker ++ b) = .skip) :
    judgeAll U false (before ++ rs) = judgeAll U false rs := by
  induction before with
  | nil => rfl
  | cons b before ih =>
    have hempty : (before ++ rs).isEmpty = false := by simp [hrs]
    rw [List.cons_append, judgeAll_cons_skip U (by rw [hempty]; exact h b List.mem_cons_self),
      ih fun b hb => h b (List.mem_cons_of_mem _ hb)]

/-- A line that is read for every log without harm is a `fail` line. -/
theorem tag_of_fine {rs : Bytes → Bytes} {line : Bytes} (hmem : ∀ log, (10 : UInt8) ∈ rs log)
    (hline : ∀ log, firstLine (rs log) = line)
    (h : ∀ log, Fine log (judgeAll U false [rs log])) : tag line = "fail".toList := by
  have hjudge : ∀ log, judge U false true (marker ++ rs log) =
      judgeLine U false true (marker ++ rs log) line := by
    intro log
    rw [judge_eq, if_pos (hmem log), hline log]
  by_contra hfail
  by_cases hok : tag line = "ok".toList
  · have hread := h []
    rw [judgeAll, List.isEmpty_nil, hjudge, judgeLine, if_pos hok] at hread
    cases hread.1
  · -- The line would be reported as unrecognized, whatever the log is.
    have hread : ∀ log, Fine log (.ok (some ⟨false, none, none, unrecognized U line⟩)) := by
      intro log
      have hread := h log
      rw [judgeAll, List.isEmpty_nil, hjudge, judgeLine, if_neg hok, if_neg hfail] at hread
      exact hread
    exact not_fine_both (hread []) (hread [0])

/-- What is read of a `fail` line with a complete log is a failure with that log. -/
theorem eq_of_fine {r l log : Bytes} (hmem : (10 : UInt8) ∈ r) (htag : tag (firstLine r) = "fail".toList)
    (hlog : extractLog (marker ++ r) = (l, true)) (h : Fine log (judgeAll U false [r])) :
    l = log ∧ ShortRc U (firstLine r) := by
  have hread : judge U false true (marker ++ r) = failure U (firstLine r) l := by
    rw [judge_eq, if_pos hmem, judgeLine, htag, hlog, if_neg (by decide), if_pos rfl]
    exact if_pos rfl
  rw [judgeAll, List.isEmpty_nil, hread] at h
  by_cases hshort : ShortRc U (firstLine r)
  · obtain ⟨rc', cmd, hfailure⟩ := failure_of_shortRc U hshort l
    rw [hfailure] at h
    exact ⟨h.2, hshort⟩
  · rw [failure_of_not_shortRc U hshort] at h
    exact absurd h (by rintro ⟨⟩)

/-- A piece that another marker follows is passed over, or does harm. -/
theorem skipOk_of_fine (h : ∀ log, Fine log (judgeAll U false [opening 0 first ++ c])) : SkipOk first c := by
  have htag : (10 : UInt8) ∈ c → tag (firstLine (opening 0 first ++ c)) = "fail".toList := fun hmem =>
    tag_of_fine U (fun _ => List.mem_append_right _ hmem) (fun _ => rfl) h
  refine ⟨?_, fun hfirst hmem => ?_⟩
  · by_contra hcomplete
    have hcomplete' : (extractLog c).2 = true := by simpa using hcomplete
    have hmem := newline_of_extractLog hcomplete'
    have hlog : extractLog (marker ++ (opening 0 first ++ c)) = ((extractLog c).1, true) := by
      rw [extractLog_opening]
      exact Prod.ext rfl hcomplete'
    have hread : ∀ log, (extractLog c).1 = log := fun log =>
      (eq_of_fine U (List.mem_append_right _ hmem) (htag hmem) hlog (h log)).1
    have hboth := (hread []).symm.trans (hread [0])
    cases hboth
  · subst hfirst
    exact htag hmem

/-- The last piece is read with the record's log, or does harm. -/
theorem lastOk_of_fine (h : ∀ log, Fine log (judgeAll U false [opening 0 first ++ (c ++ failTail log)])) :
    LastOk U first c := by
  have hmem : ∀ log, (10 : UInt8) ∈ opening 0 first ++ (c ++ failTail log) := by
    intro log
    rw [failTail_eq]
    simp
  have hline : ∀ log, firstLine (opening 0 first ++ (c ++ failTail log)) =
      firstLine (opening 0 first ++ (c ++ [34])) := by
    intro log
    rw [← List.append_assoc, firstLine_failTail, List.append_assoc]
  have htag := tag_of_fine U hmem hline h
  have hbegin : ¬logBegin <:+: c := by
    intro hin
    obtain ⟨log, l, hlog, hne⟩ := extractLog_spoiled hin
    refine hne (eq_of_fine U (hmem log) (by rw [hline, htag]) ?_ (h log)).1
    rw [extractLog_opening]
    exact hlog
  refine ⟨hbegin, fun hfirst => ?_⟩
  subst hfirst
  have hread := eq_of_fine U (hmem []) (by rw [hline, htag])
    (by rw [extractLog_opening, extractLog_failTail hbegin]) (h [])
  refine ⟨htag, ?_⟩
  rw [hline] at hread
  exact hread.2

variable (before) in
/-- A command whose record is never read wrongly is harmless. -/
theorem harmless_of_fine {cs : List Bytes} (hc : ¬marker <:+: c) (hcs : Clean marker cs)
    (hbefore : ∀ b ∈ before, judge U false false (marker ++ b) = .skip)
    (h : ∀ log rs, Clean marker rs → glue marker rs <+: glue marker (recordPieces 0 log first c cs) →
      Fine log (judgeAll U false (before ++ rs))) : Harmless U first c cs := by
  induction cs generalizing first c before with
  | nil =>
    refine lastOk_of_fine U fun log => ?_
    have hclean := clean_recordPieces 0 log first hc hcs
    have hread := h log _ hclean List.prefix_rfl
    rw [recordPieces, withTail, List.append_assoc, judgeAll_append U (by simp) hbefore] at hread
    exact hread
  | cons d ds ih =>
    have hskip : SkipOk first c := by
      refine skipOk_of_fine U fun log => ?_
      have hclean : Clean marker [opening 0 first ++ c] := by
        intro r hr
        rw [List.mem_singleton.mp hr]
        exact clean_opening 0 first hc
      have hread := h log _ hclean (by rw [recordPieces, withTail]; simp)
      rwa [judgeAll_append U (by simp) hbefore] at hread
    refine ⟨hskip, ih (before ++ [opening 0 first ++ c]) (hcs d List.mem_cons_self)
      (fun r hr => hcs r (List.mem_cons_of_mem _ hr)) ?_ fun log rs hrs hpre => ?_⟩
    · intro b hb
      rcases List.mem_append.mp hb with hb | hb
      · exact hbefore b hb
      · rw [List.mem_singleton.mp hb]
        exact judge_skip U hskip
    · have hclean : Clean marker ((opening 0 first ++ c) :: rs) := by
        intro r hr
        rcases List.mem_cons.mp hr with rfl | hr
        · exact clean_opening 0 first hc
        · exact hrs r hr
      have hread := h log _ hclean (by
        rw [recordPieces, withTail, Search.glue_cons, Search.glue_cons, List.prefix_append_right_inj,
          List.prefix_append_right_inj]
        exact hpre)
      rwa [List.append_assoc, List.singleton_append]

end Harm

/-- Where every delivery is reported, nothing that arrives is read wrongly. -/
theorem fine_of_reports {cmd : Bytes} (h : Reports U cmd) {log p : Bytes} (hp : p <+: failRecord 0 cmd log) :
    Fine log (parse U p false) := by
  have hnil : ¬marker <:+: ([] : Bytes) := by decide
  by_cases hne : p = []
  · subst hne
    trivial
  · obtain ⟨rest, hrest⟩ := hp
    -- The beginning in one chunk, and the rest in another.
    have hread := (h 0 log [] hnil _ List.prefix_rfl [(p, false), (rest, false)]
      (by simp [delivered, hrest])).2 (by simp [Punctual])
    have hlog := hread.2 rfl
    rw [wait, waitFrom, List.nil_append, if_neg hne] at hlog
    match hparse : parse U p false with
    | .error _ =>
      rw [hparse] at hlog
      cases hlog
    | .ok none => trivial
    | .ok (some r) =>
      rw [hparse] at hlog
      dsimp only at hlog
      rw [raiseOrReturn] at hlog
      cases hok : r.ok with
      | true =>
        rw [hok] at hlog
        cases hlog
      | false =>
        rw [hok] at hlog
        exact ⟨hok, hlog⟩

/-- **A failed build is never read as a success**, for the commands whose own framing does no
harm and for no other. -/
theorem reports_iff (cmd : Bytes) : Reports U cmd ↔ Benign U cmd := by
  obtain ⟨hcmd, hc, hcs⟩ := Search.split_spec (show marker ≠ [] by decide) cmd
  constructor
  · intro h
    refine harmless_of_fine U [] hc hcs (by simp) fun log rs hrs hpre => ?_
    have hnil : ¬marker <:+: ([] : Bytes) := by decide
    have hp : glue marker rs <+: failRecord 0 cmd log := by
      have hrecord := failRecord_eq 0 log (Search.split marker cmd).1 (Search.split marker cmd).2
      rw [← hcmd] at hrecord
      rw [hrecord]
      exact hpre
    have hfine := fine_of_reports U h hp
    have hparse := parse_glue U false hnil hrs
    rw [List.nil_append] at hparse
    rwa [hparse] at hfine
  · intro h
    have hreports := reports_of_harmless U hc hcs h
    rwa [← hcmd] at hreports

/-- Letters and digits of ASCII alone. -/
def plain : Unicode where
  isWord c := c.isAlphanum || c == '_'
  digit c := if c.isDigit = true then some (c.toNat - 48) else none
  repr text := text
  isWord_ascii _ _ := rfl
  digit_ascii _ _ := rfl

/-- A provisioning step that waits for the word another build leaves in the system log. -/
def grepStep : Bytes := ascii "grep -q 'TESTRANGE-RESULT: ok ' /var/log/syslog"

def succeeded : Outcome → Bool
  | .returned => true
  | _ => false

/-- The step fails with status 1, the guest reports it in one piece and powers off, and the wait
returns: the disk is captured. -/
theorem grepStep_returned :
    wait plain [(failRecord 1 grepStep (ascii "E: no such log\n"), false)] = .returned ∧
      ¬Reports plain grepStep := by
  have hsucceeded : succeeded
      (wait plain [(failRecord 1 grepStep (ascii "E: no such log\n"), false)]) = true := by
    decide +kernel
  have hreturned : wait plain [(failRecord 1 grepStep (ascii "E: no such log\n"), false)] = .returned := by
    revert hsucceeded
    cases wait plain [(failRecord 1 grepStep (ascii "E: no such log\n"), false)] with
    | returned => exact fun _ => rfl
    | failed => rintro ⟨⟩
    | timedOut => rintro ⟨⟩
    | valueError => rintro ⟨⟩
  refine ⟨hreturned, fun h => ?_⟩
  have hread := h 1 (ascii "E: no such log\n") [] (by decide) _ List.prefix_rfl
    [(failRecord 1 grepStep (ascii "E: no such log\n"), false)] (by simp [delivered])
  exact hread.1 hreturned

end BuildResult

end TestRange
