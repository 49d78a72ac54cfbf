/-
How a verdict depends on what has arrived.

A record that says `ok`, or `fail` with a complete log, is read the same whatever follows
it.  A line with an unknown token is a verdict only while no other marker follows, so a
verdict may be taken too early.

* `BuildResult.Silent` — a record that says nothing of itself;
* `BuildResult.parse_stable` — a recognised verdict stays;
* `BuildResult.wait_chunks_iff` — when the outcome does not depend on how the stream was cut.
-/
import TestRange.Orchestrator.BuildReport

namespace TestRange

namespace BuildResult

open Search (find glue Clean)

variable (U : Unicode)

/-! ### Records that speak for themselves -/

/-- The line of a record is neither `ok` nor `fail`. -/
def Unknown (r : Bytes) : Prop :=
  tag (firstLine r) ≠ "ok".toList ∧ tag (firstLine r) ≠ "fail".toList

/-- What follows a marker says nothing of itself: its line is not complete, or it is neither
`ok` nor a `fail` with a complete log. -/
def Silent (r : Bytes) : Prop :=
  10 ∈ r → tag (firstLine r) ≠ "ok".toList ∧
    (tag (firstLine r) = "fail".toList → (extractLog (marker ++ r)).2 = false)

variable {U}

/-- A record that speaks for itself: a complete `ok` line, or a `fail` line with its log. -/
theorem not_silent_iff {r : Bytes} : ¬Silent r ↔ 10 ∈ r ∧ (tag (firstLine r) = "ok".toList ∨
    tag (firstLine r) = "fail".toList ∧ (extractLog (marker ++ r)).2 = true) := by
  rw [Silent, Classical.not_imp, not_and_or, not_not, Classical.not_imp, Bool.not_eq_false]

/-- What stands before the first marker, and what follows each. -/
theorem split_marker (d : Bytes) : d = (Search.split marker d).1 ++ glue marker (Search.split marker d).2 ∧
    ¬marker <:+: (Search.split marker d).1 ∧ Clean marker (Search.split marker d).2 :=
  Search.split_spec (by decide) d

/-- A record before another marker is skipped iff it says nothing of itself. -/
theorem judge_eq_skip_iff {r : Bytes} : judge U false false (marker ++ r) = .skip ↔ Silent r := by
  rw [judge_eq, Silent]
  by_cases hmem : (10 : UInt8) ∈ r
  · simp only [hmem, if_true, true_implies, judgeLine, Bool.or_false]
    by_cases hok : tag (firstLine r) = "ok".toList
    · simp [hok]
    · rw [if_neg hok]
      by_cases hfail : tag (firstLine r) = "fail".toList
      · rw [if_pos hfail]
        cases hlog : (extractLog (marker ++ r)).2 with
        | true =>
          simp only [if_true, hfail, true_implies, Bool.true_eq_false, and_false, iff_false]
          unfold failure
          split <;> simp
        | false => exact iff_of_true rfl ⟨hok, fun _ => rfl⟩
      · rw [if_neg hfail]
        exact iff_of_true rfl ⟨hok, fun htag => absurd htag hfail⟩
  · simp [hmem]

/-- The failure that a line with an unknown token is taken for. -/
def unknownFailure (U : Unicode) (line : Bytes) : Result := ⟨false, none, none, unrecognized U line⟩

/-- A record that says nothing of itself, at the end: a line with an unknown token is a
failure. -/
theorem judge_last_of_silent {r : Bytes} (h : Silent r) : judge U false true (marker ++ r) =
    if 10 ∈ r then
      if tag (firstLine r) = "fail".toList then .answer none
      else .answer (some (unknownFailure U (firstLine r)))
    else .skip := by
  rw [judge_eq]
  by_cases hmem : (10 : UInt8) ∈ r
  · obtain ⟨hok, hlog⟩ := h hmem
    rw [if_pos hmem, if_pos hmem, judgeLine, if_neg hok]
    by_cases hfail : tag (firstLine r) = "fail".toList
    · rw [if_pos hfail, if_pos hfail, hlog hfail]
      rfl
    · rw [if_neg hfail, if_neg hfail]
      rfl
  · rw [if_neg hmem, if_neg hmem]
    rfl

/-- A record that speaks for itself is read the same when it is the last. -/
theorem judge_of_not_silent {r : Bytes} (h : ¬Silent r) (isLast : Bool) :
    judge U false isLast (marker ++ r) = judge U false false (marker ++ r) := by
  obtain ⟨hmem, hline⟩ := not_silent_iff.mp h
  rw [judge_eq, judge_eq, if_pos hmem, if_pos hmem, judgeLine, judgeLine]
  rcases hline with hok | ⟨hfail, hlog⟩
  · rw [if_pos hok, if_pos hok]
  · have hok : tag (firstLine r) ≠ "ok".toList := by
      rw [hfail]
      decide
    rw [if_neg hok, if_neg hok, if_pos hfail, if_pos hfail, hlog]
    rfl

/-- A record that speaks for itself, and the beginning of it that does. -/
theorem judge_mono {r r' : Bytes} (h : ¬Silent r') (hle : r' <+: r) (isLast : Bool) :
    judge U false isLast (marker ++ r) = judge U false false (marker ++ r') := by
  obtain ⟨hmem', hline⟩ := not_silent_iff.mp h
  have hmem : (10 : UInt8) ∈ r := hle.subset hmem'
  have hfirst : firstLine r' = firstLine r := firstLine_mono hle hmem'
  rw [judge_eq, judge_eq, if_pos hmem, if_pos hmem', judgeLine, judgeLine, ← hfirst]
  rcases hline with hok | ⟨hfail, hlog⟩
  · rw [if_pos hok, if_pos hok]
  · have hok : tag (firstLine r') ≠ "ok".toList := by
      rw [hfail]
      decide
    have hmono : extractLog (marker ++ r) = extractLog (marker ++ r') := by
      have hpair : extractLog (marker ++ r') = ((extractLog (marker ++ r')).1, true) :=
        Prod.ext rfl hlog
      rw [hpair]
      exact extractLog_mono hpair ((List.prefix_append_right_inj marker).mpr hle)
    rw [if_neg hok, if_neg hok, if_pos hfail, if_pos hfail, hmono, hlog]
    rfl

/-- The beginning of the next marker makes no record speak. -/
theorem silent_append {r s : Bytes} (h : Silent r) (hs : s <+: marker) : Silent (r ++ s) := by
  intro hmem
  have hnot : (10 : UInt8) ∉ s := fun hin => absurd (hs.subset hin) (by decide)
  have hmem : (10 : UInt8) ∈ r := (List.mem_append.mp hmem).resolve_right hnot
  have hfirst : firstLine r = firstLine (r ++ s) := firstLine_mono (List.prefix_append r s) hmem
  obtain ⟨hok, hfail⟩ := h hmem
  rw [← hfirst]
  refine ⟨hok, fun htag => ?_⟩
  by_contra hlog
  rw [Bool.not_eq_false] at hlog
  have hpair : extractLog (marker ++ (r ++ s)) = ((extractLog (marker ++ (r ++ s))).1, true) :=
    Prod.ext rfl hlog
  have hle : marker ++ (r ++ s) <+: (marker ++ r) ++ marker := by
    rw [← List.append_assoc]
    exact (List.prefix_append_right_inj _).mpr hs
  have hmono := extractLog_mono hpair hle
  have hnone := extractLog_marker (hfail htag)
  rw [hmono] at hnone
  cases hnone

/-- A record that speaks for itself is read the same whatever follows it: more of it, or
another marker. -/
theorem judge_extend {r r' : Bytes} {after : List Bytes} (h : ¬Silent r')
    (hle : r' <+: r ∨ after ≠ [] ∧ ∃ s, s <+: marker ∧ r' = r ++ s) (isLast : Bool) :
    judge U false isLast (marker ++ r) = judge U false false (marker ++ r') := by
  rcases hle with hle | ⟨-, s, hs, rfl⟩
  · exact judge_mono h hle isLast
  · have hr : ¬Silent r := fun hr => h (silent_append hr hs)
    rw [judge_of_not_silent hr, judge_mono hr (List.prefix_append r s) false]

/-! ### Recognised verdicts -/

variable (U)

/-- The segment whose record is the answer. -/
def answeredBy (data : Bytes) : List ℕ → Option Bytes
  | [] => none
  | idx :: rest =>
    let segment := (data.take (rest.headD data.length)).drop idx
    match judge U false rest.isEmpty segment with
    | .skip => answeredBy data rest
    | _ => some segment

/-- The segment from which `parse_build_result` takes its result. -/
def answering (data : Bytes) : Option Bytes := answeredBy U data (offsets data (data.length + 1) 0)

variable {U}

/-- The record that is the answer, among what follows each marker. -/
def answeringAll (U : Unicode) : List Bytes → Option Bytes
  | [] => none
  | r :: rs =>
    match judge U false rs.isEmpty (marker ++ r) with
    | .skip => answeringAll U rs
    | _ => some (marker ++ r)

theorem answeredBy_places (rs : List Bytes) (y : Bytes) :
    answeredBy U (y ++ glue marker rs) (places y.length rs) = answeringAll U rs := by
  induction rs generalizing y with
  | nil => rfl
  | cons r rs ih =>
    obtain ⟨hempty, hsegment⟩ := segment_places r rs y
    obtain ⟨hplaces, hdata⟩ := places_after r rs y
    rw [places, answeredBy, answeringAll, hempty, hsegment, hplaces, hdata, ih]

theorem answering_glue {x : Bytes} {rs : List Bytes} (hx : ¬marker <:+: x) (hrs : Clean marker rs) :
    answering U (x ++ glue marker rs) = answeringAll U rs := by
  rw [answering, offsets_whole hx hrs, answeredBy_places]

/-- The record that is the answer: those before it say nothing of themselves. -/
theorem of_answeringAll {rs : List Bytes} {segment : Bytes} (h : answeringAll U rs = some segment) :
    ∃ before r after, rs = before ++ r :: after ∧ (∀ b ∈ before, Silent b) ∧ segment = marker ++ r ∧
      judge U false after.isEmpty (marker ++ r) ≠ .skip := by
  induction rs with
  | nil => cases h
  | cons r rs ih =>
    rw [answeringAll] at h
    by_cases hskip : judge U false rs.isEmpty (marker ++ r) = .skip
    · rw [hskip] at h
      obtain ⟨before, q, after, rfl, hbefore, hq⟩ := ih h
      refine ⟨r :: before, q, after, rfl, ?_, hq⟩
      have hfalse : (before ++ q :: after).isEmpty = false := by simp
      rw [hfalse] at hskip
      intro b hb
      rcases List.mem_cons.mp hb with rfl | hb
      · exact judge_eq_skip_iff.mp hskip
      · exact hbefore b hb
    · refine ⟨[], r, rs, rfl, by simp, ?_, hskip⟩
      split at h
      · exact absurd ‹_› hskip
      · exact (Option.some.inj h).symm

theorem exists_answeringAll {rs : List Bytes} (h : judgeAll U false rs ≠ .ok none) :
    ∃ segment, answeringAll U rs = some segment := by
  induction rs with
  | nil => exact absurd rfl h
  | cons r rs ih =>
    rw [judgeAll] at h
    rw [answeringAll]
    cases hv : judge U false rs.isEmpty (marker ++ r) with
    | skip =>
      rw [hv] at h
      exact ih h
    | answer a => exact ⟨_, rfl⟩
    | raise => exact ⟨_, rfl⟩

/-- What a verdict is as a result. -/
def Verdict.result : Verdict → Except Unit (Option Result)
  | .skip => .ok none
  | .answer r => .ok r
  | .raise => .error ()

/-- What the loop returns is the verdict of the record that decides. -/
theorem judgeAll_deciding {before after : List Bytes} {r : Bytes} (hbefore : ∀ b ∈ before, Silent b)
    (hr : judge U false after.isEmpty (marker ++ r) ≠ .skip) :
    judgeAll U false (before ++ r :: after) = (judge U false after.isEmpty (marker ++ r)).result := by
  induction before with
  | nil =>
    rw [List.nil_append, judgeAll]
    cases hv : judge U false after.isEmpty (marker ++ r) with
    | skip => exact absurd hv hr
    | answer a => rfl
    | raise => rfl
  | cons b before ih =>
    have hfalse : (before ++ r :: after).isEmpty = false := by simp
    rw [List.cons_append, judgeAll, hfalse, judge_eq_skip_iff.mpr (hbefore b List.mem_cons_self)]
    exact ih fun c hc => hbefore c (List.mem_cons_of_mem _ hc)

/-- A record that speaks for itself decides, in a beginning of the stream and in all of it. -/
theorem parse_extend {p d x : Bytes} {rs : List Bytes} (hd : d = x ++ glue marker rs)
    (hx : ¬marker <:+: x) (hrs : Clean marker rs) (hp : p <+: d)
    (hspeaks : ∃ r, answering U p = some (marker ++ r) ∧ ¬Silent r) :
    parse U d false = parse U p false := by
  obtain ⟨q, hq, hns⟩ := hspeaks
  subst hd
  rcases Search.prefix_glue unbordered_marker hx hrs hp with ⟨hclean, -⟩ |
    ⟨before, r, after, r', rfl, rfl, hr', hle⟩
  · -- Without a marker there is no answer.
    have hnone : answering U (p ++ glue marker []) = none := by
      rw [answering_glue hclean (by simp [Clean])]
      rfl
    rw [Search.glue_nil, List.append_nil, hq] at hnone
    cases hnone
  · have hclean' : Clean marker (before ++ [r']) := by
      intro b hb
      rcases List.mem_append.mp hb with hb | hb
      · exact hrs b (List.mem_append_left _ hb)
      · rw [List.mem_singleton.mp hb]
        exact hr'
    rw [answering_glue hx hclean'] at hq
    rw [parse_glue U false hx hclean', parse_glue U false hx hrs]
    obtain ⟨b₁, q', a₁, hsplit, hb₁, hqq, -⟩ := of_answeringAll hq
    obtain rfl : q = q' := List.append_cancel_left hqq
    -- The deciding record is the last of the beginning, or one before it.
    have hcases : (q = r' ∧ b₁ = before) ∨ ∃ a₂, before = b₁ ++ q :: a₂ := by
      rcases List.eq_nil_or_concat a₁ with rfl | ⟨a₂, last, rfl⟩
      · obtain ⟨hbefore, hlast⟩ := List.append_inj' hsplit rfl
        exact .inl ⟨(List.cons.inj hlast).1.symm, hbefore.symm⟩
      · right
        rw [List.concat_eq_append, ← List.cons_append, ← List.append_assoc] at hsplit
        exact ⟨a₂, (List.append_inj' hsplit rfl).1⟩
    have hspoken (isLast : Bool) {c : Bytes} (hc : ¬Silent c) :
        judge U false isLast (marker ++ c) ≠ .skip := by
      rw [judge_of_not_silent hc]
      exact fun hskip => hc (judge_eq_skip_iff.mp hskip)
    rcases hcases with ⟨rfl, rfl⟩ | ⟨a₂, rfl⟩
    · have hextend := judge_extend (U := U) hns hle
      have hr : judge U false after.isEmpty (marker ++ r) ≠ .skip := by
        rw [hextend]
        exact hspoken false hns
      rw [judgeAll_deciding hb₁ hr, judgeAll_deciding hb₁ (hspoken _ hns), hextend]
      exact congrArg Verdict.result (judge_of_not_silent hns _).symm
    · rw [List.append_assoc, List.append_assoc, List.cons_append, List.cons_append,
        judgeAll_deciding hb₁ (hspoken _ hns), judgeAll_deciding hb₁ (hspoken _ hns),
        judge_of_not_silent hns, judge_of_not_silent hns ((a₂ ++ [r']).isEmpty)]

/-- **A recognised verdict is stable.**  A success, or the failure of a `fail` line with a
complete log, is read the same whatever follows. -/
theorem parse_stable {p : Bytes} {res : Result} (hp : parse U p false = .ok (some res))
    (hrecognised : res.ok = true ∨ ∃ segment, answering U p = some segment ∧
      tag (firstLine (segment.drop marker.length)) = "fail".toList ∧ (extractLog segment).2 = true)
    (e : Bytes) : parse U (p ++ e) false = .ok (some res) := by
  obtain ⟨hpsplit, hpx, hprs⟩ := split_marker p
  obtain ⟨hdsplit, hdx, hdrs⟩ := split_marker (p ++ e)
  have hall : judgeAll U false (Search.split marker p).2 = .ok (some res) := by
    rw [← parse_glue U false hpx hprs, ← hpsplit, hp]
  have hsome : judgeAll U false (Search.split marker p).2 ≠ .ok none := by
    rw [hall]
    simp
  obtain ⟨segment, hsegment⟩ := exists_answeringAll hsome
  have hanswering : answering U p = some segment := by
    rw [← hsegment, ← answering_glue hpx hprs, ← hpsplit]
  obtain ⟨before, r, after, hsplit, hbefore, rfl, hr⟩ := of_answeringAll hsegment
  have hns : ¬Silent r := by
    intro hsilent
    rw [hsplit, judgeAll_deciding hbefore hr] at hall
    cases after with
    | cons q after => exact hr (judge_eq_skip_iff.mpr hsilent)
    | nil =>
      -- The last record, with an unknown token: neither a success nor a `fail` line.
      have hlast : judge U false ([] : List Bytes).isEmpty (marker ++ r) = _ :=
        judge_last_of_silent hsilent
      rw [hlast] at hall hr
      split_ifs at hall hr with hmem hfail
      · cases hall
      · cases hall
        rcases hrecognised with hok | ⟨segment, hseg, htag, -⟩
        · cases hok
        · rw [hanswering] at hseg
          cases hseg
          rw [List.drop_left] at htag
          exact hfail htag
      · exact hr rfl
  rw [← hp]
  exact parse_extend hdsplit hdx hdrs (List.prefix_append p e) ⟨r, hanswering, hns⟩

deriving instance DecidableEq for Result

/-- ASCII texts without quotes, as `repr` has them. -/
def quoting : Unicode := { plain with repr := fun text => Char.ofNat 39 :: (text ++ [Char.ofNat 39]) }

/-- A failure with a complete log is read the same when the console goes on, and reports a
success. -/
theorem parse_failed_goes_on :
    parse quoting (failRecord 7 (ascii "make") (ascii "no rule")) false =
      .ok (some ⟨false, some 7, some "make".toList, ascii "no rule"⟩) ∧
    parse quoting (failRecord 7 (ascii "make") (ascii "no rule") ++ ascii "TESTRANGE-RESULT: ok\n")
      false = .ok (some ⟨false, some 7, some "make".toList, ascii "no rule"⟩) := by
  have hparse : parse quoting (failRecord 7 (ascii "make") (ascii "no rule")) false =
      .ok (some ⟨false, some 7, some "make".toList, ascii "no rule"⟩) := by
    decide
  refine ⟨hparse, parse_stable hparse (.inr ?_) _⟩
  exact ⟨failRecord 7 (ascii "make") (ascii "no rule"), by decide⟩

/-! ### The outcome and the cuts -/

/-- The caller sees the same end: a return, or an error with the same code, command and log. -/
def Outcome.Same : Outcome → Outcome → Prop
  | .returned, .returned => True
  | .failed rc cmd log _, .failed rc' cmd' log' _ => rc = rc' ∧ cmd = cmd' ∧ log = log'
  | .timedOut, .timedOut => True
  | .valueError, .valueError => True
  | _, _ => False

theorem Outcome.Same.refl (o : Outcome) : o.Same o := by
  cases o <;> simp [Outcome.Same]

/-- How the wait ends on what was read, if it does. -/
def live : Except Unit (Option Result) → Option Outcome
  | .error _ => some .valueError
  | .ok (some r) => some (raiseOrReturn r)
  | .ok none => none

variable (U) in
/-- How a stream ends that arrives in one piece. -/
def whole (d : Bytes) : Outcome := (live (parse U d false)).getD (closed U d)

theorem parse_nil_live : live (parse U [] false) = none := rfl

theorem wait_one (d : Bytes) : wait U [(d, false)] = whole U d := by
  unfold wait waitFrom whole
  by_cases hd : d = []
  · subst hd
    rfl
  · rw [if_neg hd, List.nil_append]
    cases parse U d false with
    | error e => rfl
    | ok r =>
      cases r with
      | none => rfl
      | some res => rfl

/-- A wait ends on a beginning of the stream, or with the console closed. -/
theorem waitFrom_cases {buffer : Bytes} {stream : List (Bytes × Bool)} (hpunctual : Punctual stream)
    (hbuffer : live (parse U buffer false) = none) :
    (∃ p, p <+: buffer ++ delivered stream ∧ live (parse U p false) = some (waitFrom U buffer stream)) ∨
      live (parse U (buffer ++ delivered stream) false) = none ∧
        waitFrom U buffer stream = closed U (buffer ++ delivered stream) := by
  induction stream generalizing buffer with
  | nil =>
    right
    rw [delivered, List.flatMap_nil, List.append_nil]
    exact ⟨hbuffer, rfl⟩
  | cons c rest ih =>
    obtain ⟨chunk, late⟩ := c
    obtain rfl : late = false := hpunctual _ List.mem_cons_self
    have hrest : Punctual rest := fun x hx => hpunctual x (List.mem_cons_of_mem _ hx)
    have hdelivered : buffer ++ delivered ((chunk, false) :: rest) =
        (buffer ++ chunk) ++ delivered rest := by
      simp [delivered]
    rw [hdelivered]
    by_cases hchunk : chunk = []
    · -- A heartbeat: nothing is read.
      subst hchunk
      rw [waitFrom, if_pos rfl, List.append_nil]
      exact ih hrest hbuffer
    · rw [waitFrom, if_neg hchunk]
      cases hparse : parse U (buffer ++ chunk) false with
      | error e => exact .inl ⟨buffer ++ chunk, List.prefix_append _ _, by rw [hparse]; rfl⟩
      | ok r =>
        cases r with
        | some res => exact .inl ⟨buffer ++ chunk, List.prefix_append _ _, by rw [hparse]; rfl⟩
        | none => exact ih hrest (by rw [hparse]; rfl)

theorem wait_cases {stream : List (Bytes × Bool)} (hpunctual : Punctual stream) :
    (∃ p, p <+: delivered stream ∧ live (parse U p false) = some (wait U stream)) ∨
      wait U stream = whole U (delivered stream) := by
  rcases waitFrom_cases (U := U) hpunctual parse_nil_live with h | ⟨hnone, hclosed⟩
  · exact .inl h
  · right
    rw [List.nil_append] at hnone hclosed
    rw [wait, hclosed, whole, hnone]
    rfl

/-! ### Lines that are repeated -/

theorem Unknown.silent {r : Bytes} (h : Unknown r) : Silent r :=
  fun _ => ⟨h.1, fun hfail => absurd hfail h.2⟩

variable (U)

/-- A `fail` line without a code and a command, with a complete log. -/
def FailsWith (r log : Bytes) : Prop :=
  10 ∈ r ∧ tag (firstLine r) = "fail".toList ∧ extractLog (marker ++ r) = (log, true) ∧
    searchRc U none (lineText (firstLine r)) = none ∧ searchCmd U none (lineText (firstLine r)) = none

/-- The records report a failure with no more than a log: the first that speaks for itself
does, or none does and the last is a line with an unknown token, or one that was cut off where
no other says `ok` or `fail`. -/
def Repeats (rs : List Bytes) (log : Bytes) : Prop :=
  (∃ before r after, rs = before ++ r :: after ∧ (∀ b ∈ before, Silent b) ∧ FailsWith U r log) ∨
  (∃ before r, rs = before ++ [r] ∧ (∀ b ∈ before, Silent b) ∧ 10 ∈ r ∧ Unknown r ∧
    unrecognized U (firstLine r) = log) ∨
  (∃ before r, rs = before ++ [r] ∧ (∀ b ∈ before, Unknown b) ∧ 10 ∉ r ∧ Unknown r ∧
    unrecognized U (firstLine r) = log)

/-- No complete line with an unknown token is followed by another marker, unless a record that
speaks for itself stands before it or the stream as a whole reports just this line. -/
def Chunkable (d : Bytes) : Prop :=
  ∀ before r after, (Search.split marker d).2 = before ++ r :: after → after ≠ [] →
    (∀ b ∈ before, Silent b) → 10 ∈ r → Unknown r →
    Repeats U (Search.split marker d).2 (unrecognized U (firstLine r))

variable {U}

theorem unrecognized_ne_nil (line : Bytes) : unrecognized U line ≠ [] := by
  unfold unrecognized
  have hne : ascii "unrecognized build-result token; raw line: " ≠ [] := by decide
  exact fun h => hne (List.append_eq_nil_iff.mp h).1

/-- An incomplete log is empty. -/
theorem extractLog_incomplete {c : Bytes} (h : (extractLog c).2 = false) : (extractLog c).1 = [] := by
  unfold extractLog at h ⊢
  split
  · rfl
  · rename_i start hstart
    rw [hstart] at h
    dsimp only at h
    split
    · rfl
    · rename_i content hcontent
      rw [hcontent] at h
      dsimp only at h
      split
      · rfl
      · rename_i stop hstop
        rw [hstop] at h
        cases h

theorem exists_firstLine {r : Bytes} (h : (10 : UInt8) ∈ r) : ∃ tail, r = firstLine r ++ 10 :: tail := by
  induction r with
  | nil => cases h
  | cons b r ih =>
    by_cases hb : b = 10
    · subst hb
      exact ⟨r, rfl⟩
    · obtain ⟨tail, htail⟩ := ih ((List.mem_cons.mp h).resolve_left (Ne.symm hb))
      refine ⟨tail, ?_⟩
      have hfirst : firstLine (b :: r) = b :: firstLine r := by simp [firstLine, hb]
      rw [hfirst, List.cons_append, ← htail]

theorem firstLine_of_not_mem {r : Bytes} (h : (10 : UInt8) ∉ r) : firstLine r = r :=
  List.takeWhile_eq_self_iff.mpr fun b hb => by
    simp only [ne_eq, decide_not, Bool.not_eq_true', decide_eq_false_iff_not]
    rintro rfl
    exact h hb

/-- On the last pass a line counts whether it is complete or not. -/
theorem judge_final_eq (isLast : Bool) (r : Bytes) :
    judge U true isLast (marker ++ r) = judgeLine U true isLast (marker ++ r) (firstLine r) := by
  rw [judge_eq]
  by_cases hmem : (10 : UInt8) ∈ r
  · rw [if_pos hmem]
  · rw [if_neg hmem, if_pos rfl, firstLine_of_not_mem hmem]

theorem failure_eq_plain {line log : Bytes} {res : Result} (h : failure U line log = .answer (some res)) :
    res.ok = false ∧ res.log = log ∧ (res.rc = none ↔ searchRc U none (lineText line) = none) ∧
      res.cmd = searchCmd U none (lineText line) := by
  unfold failure at h
  cases hrc : searchRc U none (lineText line) with
  | none =>
    rw [hrc] at h
    cases h
    simp
  | some ds =>
    rw [hrc, Option.map_some] at h
    cases hint : pyInt U ds with
    | none =>
      rw [hint] at h
      cases h
    | some n =>
      rw [hint] at h
      cases h
      simp

/-- A record that speaks for itself and reports no more than a log. -/
theorem judge_failsWith_iff {r log : Bytes} (hns : ¬Silent r) :
    judge U false false (marker ++ r) = .answer (some ⟨false, none, none, log⟩) ↔ FailsWith U r log := by
  obtain ⟨hmem, hline⟩ := not_silent_iff.mp hns
  rw [judge_eq, if_pos hmem, judgeLine, FailsWith]
  by_cases hok : tag (firstLine r) = "ok".toList
  · rw [if_pos hok]
    simp only [hok, hmem, true_and]
    simp
  · obtain ⟨hfail, hlog⟩ := hline.resolve_left hok
    rw [if_neg hok, if_pos hfail, hlog, Bool.true_or, if_pos rfl]
    constructor
    · intro h
      obtain ⟨-, hl, hrc, hcmd⟩ := failure_eq_plain h
      exact ⟨hmem, hfail, Prod.ext hl.symm hlog, hrc.mp rfl, hcmd.symm⟩
    · rintro ⟨-, -, hextract, hrc, hcmd⟩
      rw [failure, hrc, hcmd, hextract]
      rfl

/-- On the last pass the first record that says `ok` or `fail` decides, else the last one. -/
theorem judgeAll_final_cases {rs : List Bytes} (hne : rs ≠ []) :
    ∃ before r after, rs = before ++ r :: after ∧ (∀ b ∈ before, Unknown b) ∧
      (Unknown r → after = []) ∧ judgeAll U true rs =
        (judgeLine U true after.isEmpty (marker ++ r) (firstLine r)).result := by
  induction rs with
  | nil => exact absurd rfl hne
  | cons r rs ih =>
    rw [judgeAll, judge_final_eq]
    by_cases hdecides : Unknown r ∧ rs ≠ []
    · obtain ⟨hunknown, hrs⟩ := hdecides
      obtain ⟨before, q, after, rfl, hbefore, hq, hjudge⟩ := ih hrs
      refine ⟨r :: before, q, after, rfl, ?_, hq, ?_⟩
      · intro b hb
        rcases List.mem_cons.mp hb with rfl | hb
        · exact hunknown
        · exact hbefore b hb
      · have hfalse : (before ++ q :: after).isEmpty = false := by simp
        rw [hfalse, judgeLine, if_neg hunknown.1, if_neg hunknown.2]
        exact hjudge
    · refine ⟨[], r, rs, rfl, by simp, fun hr => by_contra fun hrs => hdecides ⟨hr, hrs⟩, ?_⟩
      have hskip : judgeLine U true rs.isEmpty (marker ++ r) (firstLine r) ≠ .skip := by
        rw [judgeLine]
        split_ifs with hok hfail hcomplete hlast hlast
        · simp
        · unfold failure
          split <;> simp
        · simp
        · simp at hcomplete
        · simp
        · refine absurd ⟨⟨hok, hfail⟩, ?_⟩ hdecides
          simpa using hlast
      cases hv : judgeLine U true rs.isEmpty (marker ++ r) (firstLine r) with
      | skip => exact absurd hv hskip
      | answer a => rfl
      | raise => rfl

/-- The last pass has an answer, where there is a marker. -/
theorem judgeAll_final_ne_none {rs : List Bytes} (hne : rs ≠ []) : judgeAll U true rs ≠ .ok none := by
  obtain ⟨before, r, after, -, -, hafter, hjudge⟩ := judgeAll_final_cases (U := U) hne
  rw [hjudge, judgeLine]
  split_ifs with hok hfail hcomplete hlast hlast
  · simp [Verdict.result]
  · unfold failure
    split <;> simp [Verdict.result]
  · simp at hcomplete
  · simp at hcomplete
  · simp [Verdict.result]
  · rw [hafter ⟨hok, hfail⟩] at hlast
    exact absurd rfl hlast

/-- Without an answer so far, what the last pass reports is the line that was cut off. -/
theorem judgeAll_final_of_none {rs : List Bytes} (hne : rs ≠ [])
    (hnone : judgeAll U false rs = .ok none) {log : Bytes} (hlog : log ≠ []) :
    judgeAll U true rs = .ok (some ⟨false, none, none, log⟩) ↔
      ∃ before r, rs = before ++ [r] ∧ (∀ b ∈ before, Unknown b) ∧ 10 ∉ r ∧ Unknown r ∧
        unrecognized U (firstLine r) = log := by
  constructor
  · intro h
    obtain ⟨before, r, after, rfl, hbefore, hafter, hjudge⟩ := judgeAll_final_cases (U := U) hne
    have hsilent : ∀ b ∈ before, Silent b := fun b hb => (hbefore b hb).silent
    rw [hjudge, judgeLine] at h
    split_ifs at h with hok hfail hcomplete hlast hlast
    · cases h
    · -- A `fail` line: its log is not complete, so there is none.
      have hincomplete : (extractLog (marker ++ r)).2 = false := by
        by_contra hcontra
        rw [Bool.not_eq_false] at hcontra
        have hmem : (10 : UInt8) ∈ r := by
          have hmem := newline_of_extractLog hcontra
          exact (List.mem_append.mp hmem).resolve_left (by decide)
        have hns : ¬Silent r := fun hs => by
          rw [(hs hmem).2 hfail] at hcontra
          cases hcontra
        have hspeaks : judge U false after.isEmpty (marker ++ r) ≠ .skip := by
          rw [judge_of_not_silent hns]
          exact fun hskip => hns (judge_eq_skip_iff.mp hskip)
        rw [judgeAll_deciding hsilent hspeaks, judge_of_not_silent hns, judge_eq, if_pos hmem, judgeLine,
          if_neg hok, if_pos hfail, hcontra, Bool.true_or, if_pos rfl] at hnone
        unfold failure at hnone
        split at hnone <;> cases hnone
      cases hv : failure U (firstLine r) (extractLog (marker ++ r)).1 with
      | skip =>
        rw [hv] at h
        cases h
      | raise =>
        rw [hv] at h
        cases h
      | answer a =>
        rw [hv] at h
        have ha : a = some ⟨false, none, none, log⟩ := Except.ok.inj h
        rw [ha] at hv
        have hlog' : log = (extractLog (marker ++ r)).1 := (failure_eq_plain hv).2.1
        rw [extractLog_incomplete hincomplete] at hlog'
        exact absurd hlog' hlog
    · cases h
    · simp at hcomplete
    · -- The last line has an unknown token, and was cut off: else it had been an answer.
      have hunknown : Unknown r := ⟨hok, hfail⟩
      obtain rfl : after = [] := hafter hunknown
      cases h
      refine ⟨before, r, rfl, hbefore, ?_, hunknown, rfl⟩
      intro hmem
      have hjudge' : judge U false ([] : List Bytes).isEmpty (marker ++ r) = _ :=
        judge_last_of_silent hunknown.silent
      rw [if_pos hmem, if_neg hfail] at hjudge'
      rw [judgeAll_deciding hsilent (by rw [hjudge']; simp), hjudge'] at hnone
      cases hnone
    · cases h
  · rintro ⟨before, r, rfl, hbefore, -, hunknown, rfl⟩
    clear hne hnone hlog
    induction before with
    | nil =>
      rw [List.nil_append, judgeAll, judge_final_eq, judgeLine, if_neg hunknown.1, if_neg hunknown.2]
      rfl
    | cons b before ih =>
      have hb := hbefore b List.mem_cons_self
      have hfalse : (before ++ [r]).isEmpty = false := by simp
      rw [List.cons_append, judgeAll, judge_final_eq, judgeLine, if_neg hb.1, if_neg hb.2, hfalse]
      exact ih fun c hc => hbefore c (List.mem_cons_of_mem _ hc)

/-- On what was read so far, the records report a failure with no more than a log. -/
theorem judgeAll_iff_repeats {rs : List Bytes} {log : Bytes} :
    judgeAll U false rs = .ok (some ⟨false, none, none, log⟩) ↔
      (∃ before r after, rs = before ++ r :: after ∧ (∀ b ∈ before, Silent b) ∧ FailsWith U r log) ∨
      (∃ before r, rs = before ++ [r] ∧ (∀ b ∈ before, Silent b) ∧ 10 ∈ r ∧ Unknown r ∧
        unrecognized U (firstLine r) = log) := by
  constructor
  · intro h
    have hsome : judgeAll U false rs ≠ .ok none := by
      rw [h]
      simp
    obtain ⟨segment, hsegment⟩ := exists_answeringAll hsome
    obtain ⟨before, r, after, rfl, hbefore, rfl, hr⟩ := of_answeringAll hsegment
    rw [judgeAll_deciding hbefore hr] at h
    by_cases hs : Silent r
    · -- The last record, with an unknown token.
      right
      cases after with
      | cons q after => exact absurd (judge_eq_skip_iff.mpr hs) hr
      | nil =>
        have hlast : judge U false ([] : List Bytes).isEmpty (marker ++ r) = _ :=
          judge_last_of_silent hs
        rw [hlast] at h hr
        split_ifs at h hr with hmem hfail
        · cases h
        · cases h
          exact ⟨before, r, rfl, hbefore, hmem, ⟨(hs hmem).1, hfail⟩, rfl⟩
        · exact absurd rfl hr
    · left
      refine ⟨before, r, after, rfl, hbefore, (judge_failsWith_iff hs).mp ?_⟩
      rw [judge_of_not_silent hs] at h
      cases hv : judge U false false (marker ++ r) with
      | skip => exact absurd (judge_eq_skip_iff.mp hv) hs
      | answer a =>
        rw [hv] at h
        rw [Except.ok.inj h]
      | raise =>
        rw [hv] at h
        cases h
  · rintro (⟨before, r, after, rfl, hbefore, hfails⟩ | ⟨before, r, rfl, hbefore, hmem, hunknown, rfl⟩)
    · have hs : ¬Silent r := by
        intro hs
        have hlog := (hs hfails.1).2 hfails.2.1
        rw [hfails.2.2.1] at hlog
        cases hlog
      have hjudge := (judge_failsWith_iff hs).mpr hfails
      rw [judgeAll_deciding hbefore (by rw [judge_of_not_silent hs, hjudge]; simp),
        judge_of_not_silent hs, hjudge]
      rfl
    · have hlast : judge U false ([] : List Bytes).isEmpty (marker ++ r) = _ :=
        judge_last_of_silent hunknown.silent
      rw [if_pos hmem, if_neg hunknown.2] at hlast
      rw [judgeAll_deciding hbefore (by rw [hlast]; simp), hlast]
      rfl

/-- A line that was cut off is no answer yet. -/
theorem judgeAll_cut_off {before : List Bytes} {r : Bytes} (hbefore : ∀ b ∈ before, Silent b)
    (hmem : (10 : UInt8) ∉ r) : judgeAll U false (before ++ [r]) = .ok none := by
  by_contra h
  obtain ⟨segment, hsegment⟩ := exists_answeringAll h
  obtain ⟨before', q, after, hsplit, -, -, hq⟩ := of_answeringAll hsegment
  have hsilent : ∀ b ∈ before ++ [r], Silent b := by
    intro b hb
    rcases List.mem_append.mp hb with hb | hb
    · exact hbefore b hb
    · rw [List.mem_singleton.mp hb]
      exact fun hin => absurd hin hmem
  have hqs : Silent q := hsilent q (by rw [hsplit]; simp)
  cases after with
  | cons q' after => exact hq (judge_eq_skip_iff.mpr hqs)
  | nil =>
    obtain ⟨-, hlast⟩ := List.append_inj' hsplit rfl
    obtain rfl : r = q := (List.cons.inj hlast).1
    refine hq ?_
    have hskip : judge U false ([] : List Bytes).isEmpty (marker ++ r) = _ := judge_last_of_silent hqs
    rw [hskip, if_neg hmem]

/-- A stream in one piece ends in a failure with no more than a log iff its records say so. -/
theorem whole_iff_repeats {d : Bytes} (hne : (Search.split marker d).2 ≠ []) {log : Bytes}
    (hlog : log ≠ []) :
    (Outcome.failed none none log none).Same (whole U d) ↔ Repeats U (Search.split marker d).2 log := by
  obtain ⟨hd, hx, hrs⟩ := split_marker d
  have hparse (final : Bool) : parse U d final = judgeAll U final (Search.split marker d).2 := by
    rw [← parse_glue U final hx hrs, ← hd]
  generalize (Search.split marker d).2 = rs at hne hparse
  have hresult : ∀ res : Result, (Outcome.failed none none log none).Same (raiseOrReturn res) ↔
      res = ⟨false, none, none, log⟩ := by
    rintro ⟨ok, rc, cmd, log'⟩
    unfold raiseOrReturn
    cases ok with
    | true => simp [Outcome.Same]
    | false => simp [Outcome.Same, eq_comm]
  have hcut : (∃ before r, rs = before ++ [r] ∧ (∀ b ∈ before, Unknown b) ∧ 10 ∉ r ∧ Unknown r ∧
      unrecognized U (firstLine r) = log) → judgeAll U false rs = .ok none := by
    rintro ⟨before, r, rfl, hbefore, hmem, -, -⟩
    exact judgeAll_cut_off (fun b hb => (hbefore b hb).silent) hmem
  unfold whole closed
  rw [hparse false, hparse true, Repeats, ← or_assoc, ← judgeAll_iff_repeats]
  cases hjudge : judgeAll U false rs with
  | error e =>
    rw [hjudge] at hcut
    simp only [live, Option.getD_some, Outcome.Same, reduceCtorEq, false_or, false_iff]
    exact fun h => absurd (hcut h) (by simp)
  | ok r =>
    cases r with
    | some res =>
      rw [hjudge] at hcut
      simp only [live, Option.getD_some, hresult, Except.ok.injEq, Option.some.injEq]
      exact ⟨.inl, fun h => h.resolve_right fun h => absurd (hcut h) (by simp)⟩
    | none =>
      have hfinal := judgeAll_final_of_none hne hjudge hlog
      simp only [live, Option.getD_none, Except.ok.injEq, reduceCtorEq, false_or]
      rw [← hfinal]
      cases hpass : judgeAll U true rs with
      | error e => simp [Outcome.Same]
      | ok r' =>
        cases r' with
        | some res => simp only [hresult, Except.ok.injEq, Option.some.injEq]
        | none => exact absurd hpass (judgeAll_final_ne_none hne)

/-! ### The cuts -/

/-- A verdict on a beginning of the stream is the verdict on all of it. -/
theorem same_of_prefix {p d : Bytes} {o : Outcome} (hp : p <+: d) (hchunk : Chunkable U d)
    (h : live (parse U p false) = some o) : o.Same (whole U d) := by
  obtain ⟨hd, hx, hrs⟩ := split_marker d
  have hp' := hp
  rw [hd] at hp'
  rcases Search.prefix_glue unbordered_marker hx hrs hp' with ⟨hclean, -⟩ |
    ⟨before, r, after, r', hsplit, hpglue, hr', hle⟩
  · -- No marker has arrived.
    have hnone : parse U (p ++ glue marker []) false = .ok none := parse_glue U false hclean (by simp [Clean])
    rw [Search.glue_nil, List.append_nil] at hnone
    rw [hnone] at h
    cases h
  · have hclean : Clean marker (before ++ [r']) := by
      intro b hb
      rcases List.mem_append.mp hb with hb | hb
      · exact hrs b (by rw [hsplit]; exact List.mem_append_left _ hb)
      · rw [List.mem_singleton.mp hb]
        exact hr'
    have hparse : parse U p false = judgeAll U false (before ++ [r']) := by
      rw [hpglue, parse_glue U false hx hclean]
    have hsome : judgeAll U false (before ++ [r']) ≠ .ok none := by
      intro hnone
      rw [hparse, hnone] at h
      cases h
    obtain ⟨segment, hsegment⟩ := exists_answeringAll hsome
    have hanswering : answering U p = some segment := by
      rw [hpglue, answering_glue hx hclean, hsegment]
    obtain ⟨b₁, q, a₁, hq, hb₁, rfl, hdecides⟩ := of_answeringAll hsegment
    by_cases hs : Silent q
    · -- The last line so far, with an unknown token.
      cases a₁ with
      | cons q' a₁ => exact absurd (judge_eq_skip_iff.mpr hs) hdecides
      | nil =>
        obtain ⟨rfl, hlast⟩ := List.append_inj' hq rfl
        obtain rfl : r' = q := (List.cons.inj hlast).1
        have hjudge : judge U false ([] : List Bytes).isEmpty (marker ++ r') = _ :=
          judge_last_of_silent hs
        rw [hparse, judgeAll_deciding hb₁ hdecides, hjudge] at h
        rw [hjudge] at hdecides
        split_ifs at h hdecides with hmem hfail
        · cases h
        · have ho : o = .failed none none (unrecognized U (firstLine r')) none := (Option.some.inj h).symm
          obtain ⟨hin, hfirst⟩ : 10 ∈ r ∧ firstLine r' = firstLine r := by
            rcases hle with hle | ⟨-, s, hs', rfl⟩
            · exact ⟨hle.subset hmem, firstLine_mono hle hmem⟩
            · have hnot : (10 : UInt8) ∉ s := fun hin => absurd (hs'.subset hin) (by decide)
              have hin : (10 : UInt8) ∈ r := (List.mem_append.mp hmem).resolve_right hnot
              exact ⟨hin, (firstLine_mono (List.prefix_append r s) hin).symm⟩
          have hunknown : Unknown r := by
            rw [Unknown, ← hfirst]
            exact ⟨(hs hmem).1, hfail⟩
          have hrepeats : Repeats U (Search.split marker d).2 (unrecognized U (firstLine r)) := by
            by_cases hafter : after = []
            · subst hafter
              exact .inr (.inl ⟨before, r, hsplit, hb₁, hin, hunknown, rfl⟩)
            · exact hchunk before r after hsplit hafter hb₁ hin hunknown
          rw [ho, hfirst]
          exact (whole_iff_repeats (by rw [hsplit]; simp) (unrecognized_ne_nil _)).mpr hrepeats
        · exact absurd rfl hdecides
    · -- A record that speaks for itself.
      have hwhole : whole U d = o := by
        rw [whole, parse_extend hd hx hrs hp ⟨q, hanswering, hs⟩, h]
        rfl
      rw [hwhole]
      exact Outcome.Same.refl o

/-- **When the verdict does not depend on the chunks.**  However a stream is cut, waiting ends as
it does on the stream in one piece iff no complete line with an unknown token is followed by
another marker, unless a record that speaks for itself stands before it or the stream as a
whole reports just this line. -/
theorem wait_chunks_iff (d : Bytes) :
    (∀ stream, Punctual stream → delivered stream = d → (wait U stream).Same (wait U [(d, false)])) ↔
      Chunkable U d := by
  simp only [wait_one]
  constructor
  · intro h before r after hsplit hafter hbefore hmem hunknown
    obtain ⟨hd, hx, hrs⟩ := split_marker d
    -- The first chunk ends with the line.
    obtain ⟨tail, hline⟩ := exists_firstLine hmem
    have hpiece : firstLine r ++ [10] <+: r := ⟨tail, by rw [List.append_assoc]; exact hline.symm⟩
    have hclean : Clean marker (before ++ [firstLine r ++ [10]]) := by
      intro b hb
      rcases List.mem_append.mp hb with hb | hb
      · exact hrs b (by rw [hsplit]; exact List.mem_append_left _ hb)
      · rw [List.mem_singleton.mp hb]
        exact fun hin => hrs r (by rw [hsplit]; simp) (hin.trans hpiece.isInfix)
    have hmem' : (10 : UInt8) ∈ firstLine r ++ [10] := by simp
    have hfirst : firstLine (firstLine r ++ [10]) = firstLine r := firstLine_mono hpiece hmem'
    have hunknown' : Unknown (firstLine r ++ [10]) := by
      rw [Unknown, hfirst]
      exact hunknown
    have hparse : parse U ((Search.split marker d).1 ++ glue marker (before ++ [firstLine r ++ [10]])) false =
        .ok (some (unknownFailure U (firstLine r))) := by
      rw [parse_glue U false hx hclean]
      exact judgeAll_iff_repeats.mpr (.inr ⟨before, _, rfl, hbefore, hmem', hunknown', by rw [hfirst]⟩)
    have hcut : d = ((Search.split marker d).1 ++ glue marker (before ++ [firstLine r ++ [10]])) ++
        (tail ++ glue marker after) := by
      calc d = (Search.split marker d).1 ++ glue marker (before ++ r :: after) := by rw [← hsplit]; exact hd
        _ = (Search.split marker d).1 ++ glue marker (before ++ (firstLine r ++ 10 :: tail) :: after) := by
            rw [← hline]
        _ = _ := by simp [Search.glue_append]
    generalize (Search.split marker d).1 ++ glue marker (before ++ [firstLine r ++ [10]]) = p at hparse hcut
    have hwait : wait U [(p, false), (tail ++ glue marker after, false)] =
        .failed none none (unrecognized U (firstLine r)) none := by
      have hne : p ≠ [] := by
        rintro rfl
        cases hparse
      rw [wait, waitFrom, if_neg hne, List.nil_append, hparse]
      rfl
    have hsame := h [(p, false), (tail ++ glue marker after, false)] (by simp [Punctual]) (by
      rw [hcut]
      simp [delivered])
    rw [hwait] at hsame
    exact (whole_iff_repeats (by rw [hsplit]; simp) (unrecognized_ne_nil _)).mp hsame
  · intro hchunk stream hpunctual hdelivered
    rcases wait_cases (U := U) hpunctual with ⟨p, hp, hlive⟩ | hwhole
    · rw [hdelivered] at hp
      exact same_of_prefix hp hchunk hlive
    · rw [hwhole, hdelivered]
      exact Outcome.Same.refl _

/-- A line with an unknown token is taken for the verdict when it is all that has arrived, and
skipped when the success behind it arrives with it. -/
theorem cut_changes_verdict : ¬∀ stream d, Punctual stream → delivered stream = d →
    (wait quoting stream).Same (wait quoting [(d, false)]) := by
  intro h
  have hsame := h [(ascii "TESTRANGE-RESULT: foo\n", false), (ascii "TESTRANGE-RESULT: ok\n", false)]
    _ (by simp [Punctual]) rfl
  revert hsame
  have hcut : ∃ log, wait quoting [(ascii "TESTRANGE-RESULT: foo\n", false),
      (ascii "TESTRANGE-RESULT: ok\n", false)] = .failed none none log none := ⟨_, rfl⟩
  have hone : wait quoting [(delivered [(ascii "TESTRANGE-RESULT: foo\n", false),
      (ascii "TESTRANGE-RESULT: ok\n", false)], false)] = .returned := by rfl
  obtain ⟨log, hlog⟩ := hcut
  rw [hlog, hone]
  exact id

end BuildResult

end TestRange
