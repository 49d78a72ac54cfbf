/-
How a build reports its result over the serial console.

The guest prints a record, `TESTRANGE-RESULT: ok` or a `fail` line and a framed log; the
host rescans everything it has read whenever something arrives, and once more when the
console closes.

* `BuildResult.failRecord` — what the trap of a provisioning script prints;
* `BuildResult.parse`, `BuildResult.wait` — `parse_build_result` and `wait_for_build_result`;
* `BuildResult.parse_glue` — the parser looks at what follows each marker alone;
* `BuildResult.decodeTolerant_wrap` — the log that is read is the log that was written.
-/
import TestRange.Lib.Base64
import TestRange.Lib.Search
import TestRange.Lib.Text

namespace TestRange

namespace BuildResult

open Search (find glue Clean)

/-- The contents of a stream. -/
abbrev Bytes : Type := List UInt8

/-- The bytes of an ASCII text. -/
def ascii (s : String) : Bytes := s.toList.map fun c => UInt8.ofNat c.toNat

/-! ### The record -/

/-- `_RESULT_MARKER` -/
def marker : Bytes := ascii "TESTRANGE-RESULT:"

/-- `_LOG_BEGIN` -/
def logBegin : Bytes := ascii "TESTRANGE-LOG-BEGIN"

/-- `_LOG_END` -/
def logEnd : Bytes := ascii "TESTRANGE-LOG-END"

/-- `$?`, as `%s` prints it. -/
def digits (rc : UInt8) : Bytes := ascii (toString rc.toNat)

/-- The fail line up to the command. -/
def failHead (rc : UInt8) : Bytes := ascii " fail rc=" ++ digits rc ++ ascii " cmd=\""

/-- What follows the command: the end of the line, and the framed log. -/
def failTail (log : Bytes) : Bytes :=
  ascii "\"\n" ++ (logBegin ++ (ascii "\n" ++ (Base64.wrap log ++ (logEnd ++ ascii "\n"))))

/-- What `__tr_emit_fail` prints. -/
def failRecord (rc : UInt8) (cmd log : Bytes) : Bytes :=
  marker ++ (failHead rc ++ (cmd ++ failTail log))

/-! ### The parser -/

/-- What Python's `re` and `repr` take from the Unicode database. -/
structure Unicode where
  isWord : Char → Bool
  /-- the value of a decimal digit -/
  digit : Char → Option ℕ
  repr : List Char → List Char
  isWord_ascii : ∀ c : Char, c.toNat < 128 → isWord c = (c.isAlphanum || c == '_')
  digit_ascii : ∀ c : Char, c.toNat < 128 →
    digit c = if c.isDigit = true then some (c.toNat - 48) else none

variable (U : Unicode)

/-- `\b` before a word character. -/
def boundary (prev : Option Char) : Bool := !prev.any U.isWord

/-- `_RC_RE.search`: the digits of the first `rc=`. -/
def searchRc : Option Char → List Char → Option (List Char)
  | _, [] => none
  | prev, c :: cs =>
    let found := ((c :: cs).drop 3).takeWhile fun d => (U.digit d).isSome
    if boundary U prev && "rc=".toList.isPrefixOf (c :: cs) && !found.isEmpty then some found
    else searchRc (some c) cs

/-- `(.*)"`: up to the last quote of the line. -/
def upToQuote (cs : List Char) : Option (List Char) :=
  let line := cs.takeWhile (· ≠ '\n')
  if '"' ∈ line then some ((line.reverse.dropWhile (· ≠ '"')).tail.reverse) else none

/-- `_CMD_RE.search`: what stands between the quotes. -/
def searchCmd : Option Char → List Char → Option (List Char)
  | _, [] => none
  | prev, c :: cs =>
    match (if boundary U prev && "cmd=\"".toList.isPrefixOf (c :: cs) then
      upToQuote ((c :: cs).drop 5) else none) with
    | some cmd => some cmd
    | none => searchCmd (some c) cs

/-- `int(…)` of decimal digits, which more than 4300 of them make raise. -/
def pyInt (ds : List Char) : Option ℕ :=
  if 4300 < ds.length then none
  else some (ds.foldl (fun n d => n * 10 + (U.digit d).getD 0) 0)

/-- `BuildResult` -/
structure Result where
  ok : Bool
  rc : Option ℕ
  cmd : Option (List Char)
  log : Bytes

/-- `_decode_b64_tolerant` -/
def decodeTolerant (raw : Bytes) : Bytes :=
  let compact := raw.filter Base64.isAlphabet
  let padded :=
    if compact.length % 4 = 1 then compact.dropLast
    else if compact.length % 4 ≠ 0 then compact ++ List.replicate (4 - compact.length % 4) Base64.pad
    else compact
  if padded = [] then [] else (Base64.b64decode padded).getD []

/-- `data.find(sub, pos)` -/
def findFrom (sub data : Bytes) (pos : ℕ) : Option ℕ := (find sub (data.drop pos)).map (pos + ·)

/-- `_extract_log`: the log, and whether it is complete. -/
def extractLog (segment : Bytes) : Bytes × Bool :=
  match find logBegin segment with
  | none => ([], false)
  | some start =>
    match findFrom (ascii "\n") segment start with
    | none => ([], false)
    | some contentStart =>
      match findFrom logEnd segment contentStart with
      | none => ([], false)
      | some stop => (decodeTolerant ((segment.take stop).drop (contentStart + 1)), true)

/-- What a marker says: nothing yet, an answer (which may be to wait), or `int` raised. -/
inductive Verdict
  | skip
  | answer (r : Option Result)
  | raise

/-- The text of a line. -/
def lineText (line : Bytes) : List Char := Text.strip (Text.decode line)

/-- The first word of a line. -/
def tag (line : Bytes) : List Char := Text.firstWord (lineText line)

/-- `f"unrecognized build-result token; raw line: {text!r}".encode()` -/
def unrecognized (line : Bytes) : Bytes :=
  ascii "unrecognized build-result token; raw line: " ++
    (String.ofList (U.repr (lineText line))).toUTF8.data.toList

/-- The failure a `fail` line reports. -/
def failure (line log : Bytes) : Verdict :=
  match (searchRc U none (lineText line)).map (pyInt U) with
  | none => .answer (some ⟨false, none, searchCmd U none (lineText line), log⟩)
  | some (some n) => .answer (some ⟨false, some n, searchCmd U none (lineText line), log⟩)
  | some none => .raise

/-- One candidate record, whose line is given. -/
def judgeLine (final isLast : Bool) (segment line : Bytes) : Verdict :=
  if tag line = "ok".toList then .answer (some ⟨true, none, none, []⟩)
  else if tag line = "fail".toList then
    if (extractLog segment).2 || final then failure U line (extractLog segment).1
    else if isLast then .answer none
    else .skip
  else if isLast then .answer (some ⟨false, none, none, unrecognized U line⟩)
  else .skip

/-- One candidate record. -/
def judge (final isLast : Bool) (segment : Bytes) : Verdict :=
  match find (ascii "\n") (segment.drop marker.length) with
  | none => if final then judgeLine U final isLast segment (segment.drop marker.length) else .skip
  | some nl => judgeLine U final isLast segment ((segment.drop marker.length).take nl)

/-- The places of the marker, from `pos` on. -/
def offsets (data : Bytes) : ℕ → ℕ → List ℕ
  | 0, _ => []
  | fuel + 1, pos =>
    match findFrom marker data pos with
    | none => []
    | some idx => idx :: offsets data fuel (idx + marker.length)

/-- The loop over the places: each record is bounded by the next marker. -/
def parseAt (final : Bool) (data : Bytes) : List ℕ → Except Unit (Option Result)
  | [] => .ok none
  | idx :: rest =>
    match judge U final rest.isEmpty ((data.take (rest.headD data.length)).drop idx) with
    | .skip => parseAt final data rest
    | .answer r => .ok r
    | .raise => .error ()

/-- `parse_build_result`; `error` stands for the `ValueError` of `int`. -/
def parse (data : Bytes) (final : Bool) : Except Unit (Option Result) :=
  parseAt U final data (offsets data (data.length + 1) 0)

/-! ### Waiting -/

/-- How `wait_for_build_result` ends. -/
inductive Outcome
  | returned
  /-- `BuildFailedError` -/
  | failed (rc : Option ℕ) (cmd : Option (List Char)) (log : Bytes) (detail : Option String)
  /-- `BuildTimeoutError` -/
  | timedOut
  /-- the `ValueError` of `int` -/
  | valueError

/-- `_FALLBACK_TAIL_BYTES` -/
def fallbackTailBytes : ℕ := 4096

/-- `buffer[-_FALLBACK_TAIL_BYTES:]` -/
def rawTail (buffer : Bytes) : Bytes := buffer.drop (buffer.length - fallbackTailBytes)

/-- `_fallback_log` -/
def fallbackLog (buffer : Bytes) : Bytes :=
  match find logBegin buffer with
  | none => rawTail buffer
  | some start =>
    match findFrom (ascii "\n") buffer start with
    | none => rawTail buffer
    | some contentStart =>
      let stop := (findFrom logEnd buffer contentStart).getD buffer.length
      let decoded := decodeTolerant ((buffer.take stop).drop (contentStart + 1))
      if decoded = [] then rawTail buffer else decoded

/-- `_raise_or_return` -/
def raiseOrReturn (r : Result) : Outcome :=
  if r.ok then .returned else .failed r.rc r.cmd r.log none

/-- The console has closed: the last, lenient pass. -/
def closed (buffer : Bytes) : Outcome :=
  match parse U buffer true with
  | .error _ => .valueError
  | .ok (some r) => raiseOrReturn r
  | .ok none =>
    .failed none none (fallbackLog buffer) (some "powered off without reporting a build result")

/-- The loop over the chunks; with each, whether the deadline has passed by then. -/
def waitFrom (buffer : Bytes) : List (Bytes × Bool) → Outcome
  | [] => closed U buffer
  | (chunk, late) :: rest =>
    match (if chunk = [] then .ok none else parse U (buffer ++ chunk) false) with
    | .error _ => .valueError
    | .ok (some r) => raiseOrReturn r
    | .ok none => if late then .timedOut else waitFrom (buffer ++ chunk) rest

/-- `wait_for_build_result` -/
def wait (stream : List (Bytes × Bool)) : Outcome := waitFrom U [] stream

/-! ### The log -/

theorem filterMap_pads (n : ℕ) : (List.replicate n Base64.pad).filterMap Base64.value = [] := by
  rw [List.filterMap_eq_nil_iff]
  intro c hc
  rw [List.eq_of_mem_replicate hc]
  rfl

/-- What is decoded are the characters of the alphabet, whatever padding they need. -/
theorem decodeTolerant_eq (raw : Bytes) :
    decodeTolerant raw = Base64.decodeBare ((raw.filter Base64.isAlphabet).filterMap Base64.value) := by
  unfold decodeTolerant
  have hall : ∀ c ∈ raw.filter Base64.isAlphabet, Base64.isAlphabet c = true :=
    fun c hc => (List.mem_filter.mp hc).2
  generalize raw.filter Base64.isAlphabet = compact at hall
  -- Whatever is padded to full length decodes as its characters.
  have hpadded : ∀ padded : Bytes, padded.length % 4 = 0 →
      Base64.decodeBare (padded.filterMap Base64.value) =
        Base64.decodeBare (compact.filterMap Base64.value) →
      (if padded = [] then [] else (Base64.b64decode padded).getD []) =
        Base64.decodeBare (compact.filterMap Base64.value) := by
    intro padded hlen hsame
    rw [← hsame]
    split_ifs with hnil
    · rw [hnil]
      rfl
    · rw [Base64.b64decode, if_pos hlen]
      rfl
  refine hpadded _ ?_ ?_
  · split_ifs with hone hzero
    · rw [List.length_dropLast]
      omega
    · rw [List.length_append, List.length_replicate]
      omega
    · omega
  · split_ifs with hone hzero
    · -- The last character makes no byte.
      obtain ⟨front, c, rfl⟩ : ∃ front c, compact = front ++ [c] := by
        rcases List.eq_nil_or_concat compact with rfl | ⟨front, c, h⟩
        · cases hone
        · exact ⟨front, c, by rw [h, List.concat_eq_append]⟩
      have hfront : (front.filterMap Base64.value).length = front.length :=
        Base64.length_filterMap_value fun c hc => hall c (List.mem_append_left _ hc)
      obtain ⟨n, hn⟩ := Option.isSome_iff_exists.mp (hall c (by simp))
      rw [List.length_append, List.length_singleton] at hone
      rw [List.dropLast_concat, List.filterMap_append, List.filterMap_cons_some hn, List.filterMap_nil,
        Base64.decodeBare_append (by omega)]
    · rw [List.filterMap_append, filterMap_pads, List.append_nil]
    · rfl

/-- The log that is read is the log that was written. -/
theorem decodeTolerant_wrap (log : Bytes) : decodeTolerant (Base64.wrap log) = log := by
  rw [decodeTolerant_eq, Base64.filter_wrap, Base64.decodeBare_bare]

/-- Characters of the alphabet do not decode to nothing. -/
theorem decodeTolerant_ne_nil {raw : Bytes} (h : 2 ≤ (raw.filter Base64.isAlphabet).length) :
    decodeTolerant raw ≠ [] := by
  rw [decodeTolerant_eq]
  refine Base64.decodeBare_ne_nil ?_
  rw [Base64.length_filterMap_value fun c hc => (List.mem_filter.mp hc).2]
  exact h

/-! ### Markers -/

theorem unbordered_marker : Search.Unbordered marker := by decide

/-- What the loop makes of what follows each marker. -/
def judgeAll (final : Bool) : List Bytes → Except Unit (Option Result)
  | [] => .ok none
  | r :: rs =>
    match judge U final rs.isEmpty (marker ++ r) with
    | .skip => judgeAll final rs
    | .answer a => .ok a
    | .raise => .error ()

/-- The places of the markers before some pieces. -/
def places : ℕ → List Bytes → List ℕ
  | _, [] => []
  | n, r :: rs => n :: places (n + marker.length + r.length) rs

theorem offsets_glue {rs : List Bytes} {fuel : ℕ} (hfuel : rs.length ≤ fuel) {x : Bytes} (y : Bytes)
    (hx : ¬marker <:+: x) (hrs : Clean marker rs) :
    offsets (y ++ (x ++ glue marker rs)) fuel y.length = places (y.length + x.length) rs := by
  induction rs generalizing fuel x y with
  | nil =>
    cases fuel with
    | zero => rfl
    | succ fuel =>
      rw [offsets, findFrom, List.drop_left, Search.glue_nil, List.append_nil, Search.find_eq_none.mpr hx]
      rfl
  | cons r rs ih =>
    cases fuel with
    | zero => simp at hfuel
    | succ fuel =>
      have hnext := ih (show rs.length ≤ fuel by simpa using hfuel) (x := r) (y ++ (x ++ marker))
        (hrs r List.mem_cons_self) fun r' hr' => hrs r' (List.mem_cons_of_mem _ hr')
      rw [offsets, findFrom, List.drop_left, Search.glue_cons, Search.find_self unbordered_marker hx]
      simp only [Option.map_some, places]
      simp only [List.append_assoc, List.length_append] at hnext
      rw [show y.length + x.length + marker.length = y.length + (x.length + marker.length) by omega, hnext]

/-- A record ends where the next marker starts, or with the data. -/
theorem segment_places (r : Bytes) (rs : List Bytes) (y : Bytes) :
    (places (y.length + marker.length + r.length) rs).isEmpty = rs.isEmpty ∧
    ((y ++ glue marker (r :: rs)).take ((places (y.length + marker.length + r.length) rs).headD
      (y ++ glue marker (r :: rs)).length)).drop y.length = marker ++ r := by
  have hstop : (places (y.length + marker.length + r.length) rs).headD
      (y ++ glue marker (r :: rs)).length = (y ++ (marker ++ r)).length := by
    cases rs with
    | nil => simp [places]
    | cons r' rs =>
      simp only [places, List.headD_cons, List.length_append]
      omega
  have hdata : y ++ glue marker (r :: rs) = (y ++ (marker ++ r)) ++ glue marker rs := by
    simp
  refine ⟨by cases rs <;> rfl, ?_⟩
  rw [hstop, hdata, List.take_left, List.drop_left]

/-- The places after a record are those of what follows it. -/
theorem places_after (r : Bytes) (rs : List Bytes) (y : Bytes) :
    places (y.length + marker.length + r.length) rs = places (y ++ (marker ++ r)).length rs ∧
      y ++ glue marker (r :: rs) = (y ++ (marker ++ r)) ++ glue marker rs := by
  rw [List.length_append, List.length_append, Nat.add_assoc]
  exact ⟨rfl, by simp⟩

theorem parseAt_places (final : Bool) (rs : List Bytes) (y : Bytes) :
    parseAt U final (y ++ glue marker rs) (places y.length rs) = judgeAll U final rs := by
  induction rs generalizing y with
  | nil => rfl
  | cons r rs ih =>
    obtain ⟨hempty, hsegment⟩ := segment_places r rs y
    obtain ⟨hplaces, hdata⟩ := places_after r rs y
    rw [places, parseAt, judgeAll, hempty, hsegment, hplaces, hdata, ih]

theorem length_le_glue (rs : List Bytes) : rs.length ≤ (glue marker rs).length := by
  induction rs with
  | nil => simp
  | cons r rs ih =>
    have hmarker : marker.length = 17 := by decide
    rw [Search.glue_cons, List.length_cons, List.length_append, List.length_append]
    omega

/-- The places of the markers of joined pieces. -/
theorem offsets_whole {x : Bytes} {rs : List Bytes} (hx : ¬marker <:+: x) (hrs : Clean marker rs) :
    offsets (x ++ glue marker rs) ((x ++ glue marker rs).length + 1) 0 = places x.length rs := by
  have hfuel : rs.length ≤ (x ++ glue marker rs).length + 1 := by
    have := length_le_glue rs
    rw [List.length_append]
    omega
  have hoffsets := offsets_glue hfuel [] hx hrs
  rw [List.nil_append, List.length_nil, Nat.zero_add] at hoffsets
  exact hoffsets

/-- The parser looks at what follows each marker alone. -/
theorem parse_glue (final : Bool) {x : Bytes} {rs : List Bytes} (hx : ¬marker <:+: x)
    (hrs : Clean marker rs) : parse U (x ++ glue marker rs) final = judgeAll U final rs := by
  rw [parse, offsets_whole hx hrs, parseAt_places]

end BuildResult

end TestRange
